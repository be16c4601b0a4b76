import MegaZK.BigUint.Value
import MegaZK.Lib.LongDivision

/-! # Division

The division loop that `operator/`, `operator%` and `div_rem` repeat. -/

namespace MegaZK

open Horner Radix LongDivision

namespace BigUint

/-! ### The loops -/

/-- `__builtin_clz`, which is undefined at zero. -/
def clz (d : ℕ) : Option ℕ := if d = 0 then none else some (31 - Nat.log2 d)

/-- `qhat--` of a `uint64_t`. -/
def decrement (qhat : ℕ) : ℕ := (qhat + (2 ^ 64 - 1)) % 2 ^ 64

/-- `(qhat >= b) || (qhat * v.digits[n - 2] > (rhat * b + u.digits[j + n - 2]))`. -/
def tooLarge (u v : DigitArray) (n j qhat rhat : ℕ) : Option Bool :=
  if 2 ^ 32 ≤ qhat then some true
  else if n < 2 then none
  else do
    let v2 ← v.load (n - 2)
    let u2 ← u.load (j + n - 2)
    return (rhat * 2 ^ 32 + u2) % 2 ^ 64 < qhat * v2 % 2 ^ 64

/-- The `while` loop that corrects the estimate. -/
def correctLoop (u v : DigitArray) (n j v1 : ℕ) : ℕ → ℕ → ℕ → Option ℕ
  | 0, _, _ => none
  | fuel + 1, qhat, rhat => do
    if ← tooLarge u v n j qhat rhat then
      if 2 ^ 32 ≤ rhat + v1 then some (decrement qhat)
      else correctLoop u v n j v1 fuel (decrement qhat) (rhat + v1)
    else some qhat

/-- The loop that subtracts `qhat * v` from the window at `j`, with its borrow `k`. -/
def mulSubLoop (v : DigitArray) (j qhat : ℕ) :
    ℕ → ℕ → ℤ → DigitArray → Option (DigitArray × ℤ)
  | 0, _, k, u => some (u, k)
  | n + 1, i, k, u => do
    let p := qhat * (← v.load i) % 2 ^ 64
    let t : ℤ := (← u.load (j + i)) - k - (p % 2 ^ 32 : ℕ)
    let u ← u.store (j + i) (t % 2 ^ 32).toNat
    mulSubLoop v j qhat n (i + 1) ((p >>> 32 : ℕ) - t / 2 ^ 32) u

/-- The loop that adds `v` back. The sum of two digits is a 32-bit sum; only the carry is added in
64 bits. -/
def addBackLoop (v : DigitArray) (j : ℕ) : ℕ → ℕ → ℕ → DigitArray → Option (DigitArray × ℕ)
  | 0, _, k, u => some (u, k)
  | n + 1, i, k, u => do
    let t := ((← u.load (j + i)) + (← v.load i)) % 2 ^ 32 + k
    let u ← u.store (j + i) t
    addBackLoop v j n (i + 1) (t >>> 32) u

/-- Add back after a subtraction that borrows too much. -/
def finishStep (v : DigitArray) (n j : ℕ) (u : DigitArray) (qhat : ℕ) :
    Option (DigitArray × ℕ) := do
  let (u, k) ← addBackLoop v j n 0 0 u
  let u ← u.store (j + n) ((← u.load (j + n)) + k)
  return (u, decrement qhat)

/-- The dividend of the first estimate. -/
def uhat (u : DigitArray) (n j : ℕ) : Option ℕ := do
  return (← u.load (j + n)) * 2 ^ 32 + (← u.load (j + n - 1))

/-- The body of the division loop: the next `u` and the quotient digit. -/
def divStep (v : DigitArray) (n j : ℕ) (u : DigitArray) : Option (DigitArray × ℕ) := do
  let uhat ← uhat u n j
  let v1 ← v.load (n - 1)
  let qhat ← correctLoop u v n j v1 3 (uhat / v1) (uhat % v1)
  let (u, k) ← mulSubLoop v j qhat n 0 0 u
  let top ← u.load (j + n)
  let u ← u.store (j + n) ((top - k : ℤ) % 2 ^ 32).toNat
  if (top - k : ℤ) < 0 then finishStep v n j u qhat else return (u, qhat)

/-- The division loop, from the top quotient digit down. -/
def divLoop (v : DigitArray) (n : ℕ) : ℕ → DigitArray → DigitArray →
    Option (DigitArray × DigitArray)
  | 0, u, quotient => some (u, quotient)
  | j + 1, u, quotient => do
    let (u, qhat) ← divStep v n j u
    let quotient ← quotient.store j qhat
    divLoop v n j u quotient

/-- The part that the three functions share: normalization and the loop. It gives the shift, the
remainder digits and the quotient digits. -/
def divDigits (x y : BigUint) (quotient : DigitArray) :
    Option (ℕ × DigitArray × DigitArray) := do
  let n := y.length
  let m := x.length - y.length
  let shift ← clz (← y.load (n - 1))
  let v ← y.shl shift
  let u ← x.shl shift
  let (u, quotient) ← divLoop v.toDigitArray n (m + 1) u.toDigitArray quotient
  return (shift, u, quotient)

/-- The copy of the remainder digits. -/
def copyDigits (u : DigitArray) : ℕ → DigitArray → DigitArray
  | 0, remainder => remainder
  | n + 1, remainder => (copyDigits u n remainder).update n (u.digit n)

/-- `operator/`. -/
def div (x y : BigUint) : Option BigUint :=
  if y.isZero then none
  else if x.lt y then some zero
  else do
    let (_, _, quotient) ← divDigits x y .init
    trim quotient (x.length - y.length + 1)

/-- `operator%`. -/
def mod (x y : BigUint) : Option BigUint :=
  if y.isZero then none
  else if x.lt y then some x
  else do
    let (shift, u, _) ← divDigits x y .init
    return (← trim (copyDigits u y.length .init) y.length).shr shift

/-- `div_rem`, with the digits that its results have before the call. -/
def divRem (x y : BigUint) (quotient remainder : DigitArray) : Option (BigUint × BigUint) :=
  if y.isZero then none
  else if x.lt y then some (zero, x)
  else do
    let (shift, u, quotient) ← divDigits x y quotient
    let quotient ← trim quotient (x.length - y.length + 1)
    return (quotient, (← trim (copyDigits u y.length remainder) y.length).shr shift)

/-! ### One quotient digit -/

/-- The number in the `n` digits from `j` on. -/
def window (u : DigitArray) (j n : ℕ) : ℕ := evalSum (fun i => u.digit (j + i)) n (2 ^ 32)

variable {u v : DigitArray} {n j : ℕ}

lemma window_lt (u : DigitArray) (j n : ℕ) : window u j n < (2 ^ 32) ^ n :=
  evalSum_lt fun _ _ => u.digit_lt _

lemma window_succ (u : DigitArray) (j n : ℕ) :
    window u j (n + 1) = u.digit j + 2 ^ 32 * window u (j + 1) n := by
  rw [window, evalSum_succ', add_zero, window]
  simp only [add_assoc, add_comm 1]

lemma window_congr {u' : DigitArray} (h : ∀ i < n, u'.digit (j + i) = u.digit (j + i)) :
    window u' j n = window u j n := evalSum_congr h _

lemma decrement_succ {qhat : ℕ} (hqhat : qhat < 2 ^ 64) : decrement (qhat + 1) = qhat := by
  rw [decrement, add_assoc, show 1 + (2 ^ 64 - 1) = 2 ^ 64 by norm_num, Nat.add_mod_right,
    Nat.mod_eq_of_lt hqhat]

lemma tooLarge_of_lt {qhat rhat : ℕ} (hjn : j + n < maxDigits) (hqhat : qhat < 2 ^ 32)
    (hrhat : rhat < 2 ^ 32) :
    tooLarge u v (n + 2) j qhat rhat =
      some (decide (rhat * 2 ^ 32 + u.digit (j + n) < qhat * v.digit n)) := by
  have hv := v.digit_lt n
  have hu := u.digit_lt (j + n)
  have hmul : qhat * v.digit n < 2 ^ 32 * 2 ^ 32 := Nat.mul_lt_mul'' hqhat hv
  rw [tooLarge, if_neg (by omega), if_neg (by omega), show n + 2 - 2 = n by omega,
    show j + (n + 2) - 2 = j + n by omega, v.load_of_lt (by omega), u.load_of_lt hjn]
  dsimp only [Option.bind_eq_bind, Option.bind_some, Option.pure_def]
  rw [Nat.mod_eq_of_lt (by omega), Nat.mod_eq_of_lt (by omega)]

/-- The correction loop computes the estimate from the top digits. -/
lemma correctLoop_spec {v1 u12 e : ℕ} (hjn : j + n < maxDigits) (hv1 : 2 ^ 31 ≤ v1)
    (hv1lt : v1 < 2 ^ 32) (hu12 : u12 < (v1 + 1) * 2 ^ 32)
    (he : e = min (2 ^ 32 - 1)
      ((u12 * 2 ^ 32 + u.digit (j + n)) / (v1 * 2 ^ 32 + v.digit n)))
    (fuel : ℕ) {qhat rhat : ℕ} (hfuel : 2 ^ 32 ≤ rhat + fuel * 2 ^ 31) (hrhat : rhat < 2 ^ 32)
    (hdiv : qhat * v1 + rhat = u12) (hle : e ≤ qhat) :
    correctLoop u v (n + 2) j v1 fuel qhat rhat = some e := by
  have hpos : 0 < v1 * 2 ^ 32 + v.digit n := by omega
  generalize hquot : (u12 * 2 ^ 32 + u.digit (j + n)) / (v1 * 2 ^ 32 + v.digit n) = quot at he
  induction fuel generalizing qhat rhat with
  | zero => omega
  | succ fuel ih =>
    -- the test compares the estimate with the quotient of the top digits
    have htest : tooLarge u v (n + 2) j qhat rhat = some (decide (e < qhat)) := by
      by_cases hqhat : 2 ^ 32 ≤ qhat
      · rw [tooLarge, if_pos hqhat, decide_eq_true (by omega)]
      · rw [tooLarge_of_lt hjn (by omega) hrhat]
        have hiff := hquot ▸ div_lt_iff_of_mul_add hpos hdiv
        exact congrArg some (decide_eq_decide.mpr (hiff.symm.trans (by omega)))
    rw [correctLoop, htest]
    dsimp only [Option.bind_eq_bind, Option.bind_some]
    by_cases hlt : e < qhat
    · obtain ⟨q, rfl⟩ := Nat.exists_eq_add_of_lt hlt
      have hdiv' : (e + q) * v1 + (rhat + v1) = u12 := by
        rw [← hdiv]
        ring
      have hbound : e + q < 2 ^ 64 := by
        have : e + q + 1 ≤ (e + q + 1) * v1 := Nat.le_mul_of_pos_right _ (by omega)
        have : u12 < 2 ^ 32 * 2 ^ 32 := hu12.trans_le (Nat.mul_le_mul_right _ hv1lt)
        omega
      rw [if_pos (decide_eq_true hlt), decrement_succ hbound]
      split_ifs with hbreak
      · -- a remainder of 33 bits is past every product with the second digit
        have hq : e + q < 2 ^ 32 := by
          by_contra hge
          have hmul : 2 ^ 32 * v1 ≤ (e + q) * v1 := Nat.mul_le_mul_right _ (by omega)
          rw [add_mul] at hu12
          omega
        have hmul : (e + q) * v.digit n < 2 ^ 32 * 2 ^ 32 := Nat.mul_lt_mul'' hq (v.digit_lt n)
        have hiff := hquot ▸ div_lt_iff_of_mul_add hpos hdiv'
        have hnot := (not_congr hiff).mpr (by omega)
        congr 1
        omega
      · exact ih (by omega) (by omega) hdiv' (by omega)
    · rw [if_neg (by simpa using hlt)]
      congr 1
      omega

/-- Multiply and subtract: the window loses `qhat * v`, with a borrow that it leaves to its top
digit. -/
lemma mulSubLoop_spec {qhat : ℕ} (hqhat : qhat < 2 ^ 32) (n : ℕ) {i : ℕ} {k : ℤ}
    (hle : j + i + n ≤ maxDigits) :
    ∃ u' k', mulSubLoop v j qhat n i k u = some (u', k') ∧
      (window u' (j + i) n - k' * (2 ^ 32) ^ n : ℤ) =
        window u (j + i) n - qhat * window v i n - k ∧
      ∀ t, t < j + i ∨ j + i + n ≤ t → u'.digit t = u.digit t := by
  induction n generalizing i k u with
  | zero => exact ⟨u, k, rfl, by simp [window], fun _ _ => rfl⟩
  | succ n ih =>
    have hv := v.digit_lt i
    have hp : qhat * v.digit i < 2 ^ 64 := by
      have := Nat.mul_lt_mul'' hqhat hv
      omega
    set p := qhat * v.digit i with hpdef
    set t : ℤ := u.digit (j + i) - k - (p % 2 ^ 32 : ℕ) with htdef
    obtain ⟨u', k', hrun, heq, hframe⟩ :=
      ih (u := u.update (j + i) (t % 2 ^ 32).toNat) (i := i + 1)
        (k := (p >>> 32 : ℕ) - t / 2 ^ 32) (by omega)
    refine ⟨u', k', ?_, ?_, ?_⟩
    · rw [mulSubLoop, v.load_of_lt (by omega), u.load_of_lt (by omega)]
      dsimp only [Option.bind_eq_bind, Option.bind_some]
      rw [← hpdef, Nat.mod_eq_of_lt hp, ← htdef, u.store_of_lt (by omega)]
      exact hrun
    · have hdigit : (u'.digit (j + i) : ℤ) = t % 2 ^ 32 := by
        rw [hframe (j + i) (by omega), DigitArray.digit_update_self]
        omega
      have hwindow : window (u.update (j + i) (t % 2 ^ 32).toNat) (j + (i + 1)) n =
          window u (j + (i + 1)) n :=
        window_congr fun l _ => u.digit_update_of_ne (by omega) _
      have hcarry : ((p >>> 32 : ℕ) : ℤ) = p / 2 ^ 32 := by
        rw [Nat.shiftRight_eq_div_pow]
        norm_num
      rw [hwindow, hcarry] at heq
      rw [window_succ, window_succ u, window_succ v, add_assoc j i 1]
      push_cast
      rw [hdigit]
      have hp' : (p : ℤ) = qhat * v.digit i := by rw [hpdef, Nat.cast_mul]
      have hmod : ((p % 2 ^ 32 : ℕ) : ℤ) = p - 2 ^ 32 * (p / 2 ^ 32) := by omega
      rw [hmod] at htdef
      have hdivmod : t % 2 ^ 32 + 2 ^ 32 * (t / 2 ^ 32) = t := Int.emod_add_mul_ediv t (2 ^ 32)
      generalize t % 2 ^ 32 = low at hdivmod ⊢
      linear_combination (2 ^ 32 : ℤ) * heq + hdivmod + htdef - hp'
    · intro l hl
      rw [hframe l (by omega), u.digit_update_of_ne (by omega)]

/-- Add back: the window gains `v`, less the carries of its digit sums. -/
lemma addBackLoop_spec (n : ℕ) {i k : ℕ} (hle : j + i + n ≤ maxDigits) :
    ∃ u' k', addBackLoop v j n i k u = some (u', k') ∧
      window u' (j + i) n + k' * (2 ^ 32) ^ n +
          2 ^ 32 * evalSum (fun t => (u.digit (j + i + t) + v.digit (i + t)) / 2 ^ 32) n (2 ^ 32) =
        window u (j + i) n + window v i n + k ∧
      ∀ t, t < j + i ∨ j + i + n ≤ t → u'.digit t = u.digit t := by
  induction n generalizing i k u with
  | zero => exact ⟨u, k, rfl, by simp [window], fun _ _ => rfl⟩
  | succ n ih =>
    set t := (u.digit (j + i) + v.digit i) % 2 ^ 32 + k with htdef
    obtain ⟨u', k', hrun, heq, hframe⟩ :=
      ih (u := u.update (j + i) t) (i := i + 1) (k := t >>> 32) (by omega)
    refine ⟨u', k', ?_, ?_, ?_⟩
    · rw [addBackLoop, v.load_of_lt (by omega), u.load_of_lt (by omega)]
      dsimp only [Option.bind_eq_bind, Option.bind_some]
      rw [← htdef, u.store_of_lt (by omega)]
      exact hrun
    · have hdigit : u'.digit (j + i) = t % 2 ^ 32 := by
        rw [hframe (j + i) (by omega), DigitArray.digit_update_self]
      have hwindow : window (u.update (j + i) t) (j + (i + 1)) n = window u (j + (i + 1)) n :=
        window_congr fun l _ => u.digit_update_of_ne (by omega) _
      have hlost : evalSum (fun l => ((u.update (j + i) t).digit (j + (i + 1) + l) +
            v.digit (i + 1 + l)) / 2 ^ 32) n (2 ^ 32) =
          evalSum (fun l => (u.digit (j + i + (l + 1)) + v.digit (i + (l + 1))) / 2 ^ 32) n
            (2 ^ 32) := by
        apply evalSum_congr
        intro l _
        rw [u.digit_update_of_ne (by omega), show j + (i + 1) + l = j + i + (l + 1) by omega,
          show i + 1 + l = i + (l + 1) by omega]
      rw [hwindow, hlost, Nat.shiftRight_eq_div_pow] at heq
      rw [window_succ, window_succ u, window_succ v, add_assoc j i 1, hdigit, evalSum_succ',
        add_zero, add_zero]
      have hdivmod := Nat.mod_add_div t (2 ^ 32)
      have hsum := Nat.mod_add_div (u.digit (j + i) + v.digit i) (2 ^ 32)
      generalize (u.digit (j + i) + v.digit i) / 2 ^ 32 = c at hsum ⊢
      generalize evalSum _ n (2 ^ 32) = lost at heq ⊢
      zify at heq hdivmod hsum htdef ⊢
      linear_combination (2 ^ 32 : ℤ) * heq + hdivmod + htdef + hsum
    · intro l hl
      rw [hframe l (by omega), u.digit_update_of_ne (by omega)]

lemma window_add (u : DigitArray) (j k n : ℕ) :
    window u j (k + n) = window u j k + (2 ^ 32) ^ k * window u (j + k) n := by
  rw [window, evalSum_add, window, window]
  simp only [add_assoc]

lemma window_div_pow (u : DigitArray) (j k n : ℕ) :
    window u j (k + n) / (2 ^ 32) ^ k = window u (j + k) n := by
  rw [window_add, Nat.add_mul_div_left _ _ (by positivity), Nat.div_eq_of_lt (window_lt u j k),
    zero_add]

lemma window_one (u : DigitArray) (j : ℕ) : window u j 1 = u.digit j := by
  simp [window, evalSum]

lemma window_two (u : DigitArray) (j : ℕ) :
    window u j 2 = u.digit (j + 1) * 2 ^ 32 + u.digit j := by
  rw [window_succ, window_one]
  ring

lemma window_three (u : DigitArray) (j : ℕ) :
    window u j 3 = (u.digit (j + 2) * 2 ^ 32 + u.digit (j + 1)) * 2 ^ 32 + u.digit j := by
  rw [window_succ, window_two]
  ring

/-- A divisor of `n + 2` digits whose top bit is set. -/
structure Normalized (v : DigitArray) (n : ℕ) : Prop where
  top : 2 ^ 31 ≤ v.digit (n + 1)

lemma Normalized.le_window (hv : Normalized v n) :
    2 ^ 31 * (2 ^ 32) ^ (n + 1) ≤ window v 0 (n + 2) := by
  rw [show n + 2 = n + 1 + 1 by rfl, window_add, zero_add, window_one, mul_comm]
  exact (Nat.mul_le_mul_left _ hv.top).trans (Nat.le_add_left _ _)

lemma Normalized.pow_le_window (hv : Normalized v n) :
    (2 ^ 32) ^ (n + 1) ≤ window v 0 (n + 2) :=
  (Nat.le_mul_of_pos_left _ (by norm_num)).trans hv.le_window

/-- The top digit of a window is at most the top digit of the divisor. -/
lemma top_digit_le (hW : window u j (n + 3) < window v 0 (n + 2) * 2 ^ 32) :
    u.digit (j + n + 2) ≤ v.digit (n + 1) := by
  have hV : window v 0 (n + 2) < (v.digit (n + 1) + 1) * (2 ^ 32) ^ (n + 1) := by
    have hlow := window_lt v 0 (n + 1)
    rw [show n + 2 = n + 1 + 1 by rfl, window_add, zero_add, window_one, add_mul]
    linarith
  have hle : u.digit (j + n + 2) * (2 ^ 32) ^ (n + 2) ≤ window u j (n + 3) := by
    rw [show n + 3 = n + 2 + 1 by rfl, window_add, window_one, mul_comm]
    exact Nat.le_add_left _ _
  have hlt : u.digit (j + n + 2) * (2 ^ 32) ^ (n + 2) <
      (v.digit (n + 1) + 1) * (2 ^ 32) ^ (n + 2) := by
    calc u.digit (j + n + 2) * (2 ^ 32) ^ (n + 2) ≤ window u j (n + 3) := hle
      _ < window v 0 (n + 2) * 2 ^ 32 := hW
      _ ≤ (v.digit (n + 1) + 1) * (2 ^ 32) ^ (n + 1) * 2 ^ 32 := Nat.mul_le_mul_right _ hV.le
      _ = (v.digit (n + 1) + 1) * (2 ^ 32) ^ (n + 2) := by rw [mul_assoc, ← pow_succ]
  exact Nat.lt_succ_iff.mp (Nat.lt_of_mul_lt_mul_right hlt)

/-- The correction loop of one pass computes the estimate for the window. -/
lemma correctLoop_window (hv : Normalized v n) (hjn : j + n + 2 < maxDigits)
    (hW : window u j (n + 3) < window v 0 (n + 2) * 2 ^ 32) :
    correctLoop u v (n + 2) j (v.digit (n + 1)) 3
        ((u.digit (j + n + 2) * 2 ^ 32 + u.digit (j + n + 1)) / v.digit (n + 1))
        ((u.digit (j + n + 2) * 2 ^ 32 + u.digit (j + n + 1)) % v.digit (n + 1)) =
      some (estimate (2 ^ 32) n (window v 0 (n + 2)) (window u j (n + 3))) := by
  have htop := hv.top
  set u12 := u.digit (j + n + 2) * 2 ^ 32 + u.digit (j + n + 1) with hu12
  have hV2 : window v 0 (n + 2) / (2 ^ 32) ^ n = v.digit (n + 1) * 2 ^ 32 + v.digit n := by
    rw [window_div_pow, zero_add, window_two]
  have hW3 : window u j (n + 3) / (2 ^ 32) ^ n = u12 * 2 ^ 32 + u.digit (j + n) := by
    rw [window_div_pow, window_three]
  have hlt : u12 < (v.digit (n + 1) + 1) * 2 ^ 32 := by
    have hu := u.digit_lt (j + n + 1)
    have hle := top_digit_le hW
    rw [add_mul]
    omega
  apply correctLoop_spec (by omega) htop (v.digit_lt _) hlt
  · rw [estimate, hV2, hW3]
  · omega
  · exact (Nat.mod_lt _ (by omega)).trans (v.digit_lt _)
  · exact Nat.div_add_mod' _ _
  · rw [estimate, hV2, hW3]
    exact (min_le_right _ _).trans (div_le_div_top (u.digit_lt _) (by omega))

/-- The digits of a divisor and of a window after its subtraction, as those of the numbers. -/
lemma loses_iff {V W : ℕ} (hV : V = window v 0 (n + 2))
    (hlt : W / V < estimate (2 ^ 32) n V W)
    (hu : window u j (n + 2) = W % V + (2 ^ 32) ^ (n + 2) - V) :
    Loses (2 ^ 32) n V W ↔ ∃ i < n + 1, 2 ^ 32 ≤ u.digit (j + i) + v.digit i := by
  have hdigit : ∀ i < n + 1, (W % V + (2 ^ 32) ^ (n + 2) - V) / (2 ^ 32) ^ i % 2 ^ 32 +
      V / (2 ^ 32) ^ i % 2 ^ 32 = u.digit (j + i) + v.digit i := by
    intro i hi
    rw [← hu, hV, window, window, evalSum_div_pow_mod (fun _ => u.digit_lt _) (by omega),
      evalSum_div_pow_mod (fun _ => v.digit_lt _) (by omega), zero_add]
  constructor
  · rintro ⟨-, i, hi, hle⟩
    exact ⟨i, hi, (hdigit i hi) ▸ hle⟩
  · rintro ⟨i, hi, hle⟩
    exact ⟨hlt, i, hi, (hdigit i hi).symm ▸ hle⟩

/-- After add back the window is the remainder, less what the lost carries stood for. -/
lemma addBack_window {V W lost top e k : ℕ} {d : ℕ → ℕ} (hV : 2 ^ 31 * (2 ^ 32) ^ (n + 1) ≤ V)
    (hVlt : V < (2 ^ 32) ^ (n + 2)) (hlt : W / V < estimate (2 ^ 32) n V W)
    (hd : ∀ i, d i ≤ 1) (hlost : lost = 2 ^ 32 * evalSum d (n + 1) (2 ^ 32))
    (he : e < (2 ^ 32) ^ (n + 2))
    (heq : e + k * (2 ^ 32) ^ (n + 2) + (lost + top * (2 ^ 32) ^ (n + 2)) =
      W % V + (2 ^ 32) ^ (n + 2)) :
    e + lost = W % V := by
  have hbound : lost < 2 * (2 ^ 32) ^ (n + 1) := by
    rw [hlost]
    exact lost_lt (by norm_num) fun i _ => hd i
  have hmod := le_mod_of_lt_estimate (by norm_num) hlt
  have hVpos : 0 < V := hV.trans_lt' (by positivity)
  have hrem := Nat.mod_lt W hVpos
  have heq' : e + lost + (k + top) * (2 ^ 32) ^ (n + 2) = W % V + (2 ^ 32) ^ (n + 2) := by
    rw [← heq]
    ring
  have hcarry : k + top = 1 := by
    rw [pow_succ _ (n + 1)] at *
    generalize (2 ^ 32) ^ (n + 1) = P at *
    rcases Nat.lt_trichotomy (k + top) 1 with h | h | h
    · rw [Nat.lt_one_iff.mp h] at heq'
      omega
    · exact h
    · have := Nat.mul_le_mul_right (P * 2 ^ 32) h
      omega
  rw [hcarry, one_mul] at heq'
  omega

lemma divStep_of_some {N a v1 e c : ℕ} {k : ℤ} {u₁ u₂ : DigitArray}
    (ha : uhat u N j = some a) (hv1 : v.load (N - 1) = some v1)
    (he : correctLoop u v N j v1 3 (a / v1) (a % v1) = some e)
    (hsub : mulSubLoop v j e N 0 0 u = some (u₁, k)) (hc : u₁.load (j + N) = some c)
    (hstore : u₁.store (j + N) (((c : ℤ) - k) % 2 ^ 32).toNat = some u₂) :
    divStep v N j u = if (c : ℤ) - k < 0 then finishStep v N j u₂ e else some (u₂, e) := by
  simp only [divStep, ha, hv1, he, hsub, hc, hstore, Option.bind_eq_bind, Option.bind_some,
    Option.pure_def]

lemma uhat_eq (hjn : j + n + 2 < maxDigits) :
    uhat u (n + 2) j = some (u.digit (j + n + 2) * 2 ^ 32 + u.digit (j + n + 1)) := by
  rw [uhat, show j + (n + 2) - 1 = j + n + 1 by omega, ← add_assoc, u.load_of_lt hjn,
    u.load_of_lt (by omega)]
  rfl

/-- A pass computes the estimate, subtracts and looks at the top digit `t` of the difference. -/
lemma divStep_eq {V W : ℕ} (hv : Normalized v n) (hjn : j + n + 2 < maxDigits)
    (hV : V = window v 0 (n + 2)) (hW : W = window u j (n + 3)) (hWV : W < V * 2 ^ 32) :
    ∃ (u₁ : DigitArray) (t : ℤ),
      (window u₁ j (n + 2) + t * (2 ^ 32) ^ (n + 2) : ℤ) = W - estimate (2 ^ 32) n V W * V ∧
      (∀ i < j, u₁.digit i = u.digit i) ∧
      divStep v (n + 2) j u = if t < 0 then finishStep v (n + 2) j u₁ (estimate (2 ^ 32) n V W)
        else some (u₁, estimate (2 ^ 32) n V W) := by
  have hqhat : estimate (2 ^ 32) n V W < 2 ^ 32 := estimate_lt (by norm_num) n V W
  have hcorrect := correctLoop_window (u := u) hv hjn (by rwa [← hV, ← hW])
  rw [← hV, ← hW] at hcorrect
  obtain ⟨u₁, k, hsub, heq, hframe⟩ :=
    mulSubLoop_spec (u := u) (v := v) (j := j) hqhat (n + 2) (i := 0) (k := 0) (by omega)
  rw [add_zero, ← hV, sub_zero] at heq
  simp only [add_zero, ← add_assoc] at hframe
  have htop : u₁.digit (j + n + 2) = u.digit (j + n + 2) := hframe _ (.inr le_rfl)
  refine ⟨u₁.update (j + n + 2) ((u.digit (j + n + 2) - k : ℤ) % 2 ^ 32).toNat,
    u.digit (j + n + 2) - k, ?_, ?_, ?_⟩
  · have hkeep : window (u₁.update (j + n + 2) ((u.digit (j + n + 2) - k : ℤ) % 2 ^ 32).toNat) j
        (n + 2) = window u₁ j (n + 2) := window_congr fun i hi => u₁.digit_update_of_ne (by omega) _
    have hsplit : W = window u j (n + 2) + (2 ^ 32) ^ (n + 2) * u.digit (j + n + 2) := by
      rw [hW, show n + 3 = n + 2 + 1 by rfl, window_add u j (n + 2) 1, window_one]
      rfl
    rw [hkeep]
    zify at hsplit
    linear_combination heq - hsplit
  · intro i hi
    rw [u₁.digit_update_of_ne (by omega), hframe i (.inl hi)]
  · refine divStep_of_some (uhat_eq hjn) (v.load_of_lt (by omega)) hcorrect hsub ?_ ?_
    · rw [← htop]
      exact u₁.load_of_lt hjn
    · exact u₁.store_of_lt hjn _

/-- Add back after a subtraction that left `W % V - V`. -/
lemma finishStep_spec {V W : ℕ} (hv : Normalized v n) (hjn : j + n + 2 < maxDigits)
    (hV : V = window v 0 (n + 2)) (hlt : W / V < estimate (2 ^ 32) n V W)
    (hu : window u j (n + 2) = W % V + (2 ^ 32) ^ (n + 2) - V) :
    ∃ u', finishStep v (n + 2) j u (W / V + 1) = some (u', W / V) ∧
      (∀ i < j, u'.digit i = u.digit i) ∧ window u' j (n + 2) ≤ W % V ∧
      (window u' j (n + 2) = W % V ↔ ¬ Loses (2 ^ 32) n V W) := by
  have hVlt : V < (2 ^ 32) ^ (n + 2) := hV ▸ window_lt v 0 (n + 2)
  have hVtop : 2 ^ 31 * (2 ^ 32) ^ (n + 1) ≤ V := hV ▸ hv.le_window
  obtain ⟨u₁, k, hadd, heq, hframe⟩ :=
    addBackLoop_spec (u := u) (v := v) (j := j) (n + 2) (i := 0) (k := 0) (by omega)
  simp only [add_zero, zero_add, ← add_assoc] at heq hframe
  rw [← hV, hu] at heq
  set d := fun t => (u.digit (j + t) + v.digit t) / 2 ^ 32 with hd
  have hcarry : ∀ i, d i ≤ 1 := by
    intro i
    have := u.digit_lt (j + i)
    have := v.digit_lt i
    simp only [hd]
    omega
  have hkeep (x : ℕ) : window (u₁.update (j + n + 2) x) j (n + 2) = window u₁ j (n + 2) :=
    window_congr fun i hi => u₁.digit_update_of_ne (by omega) _
  have hparts : window u₁ j (n + 2) + k * (2 ^ 32) ^ (n + 2) +
      (2 ^ 32 * evalSum d (n + 1) (2 ^ 32) + d (n + 1) * (2 ^ 32) ^ (n + 2)) =
      W % V + (2 ^ 32) ^ (n + 2) := by
    rw [evalSum_succ, Nat.sub_add_cancel (hVlt.le.trans (Nat.le_add_left _ _))] at heq
    rw [← heq]
    ring
  have hsum := addBack_window hVtop hVlt hlt hcarry rfl (window_lt _ _ _) hparts
  refine ⟨u₁.update (j + n + 2) (u₁.digit (j + n + 2) + k), ?_, ?_, ?_, ?_⟩
  · have hqhat := hlt.trans (estimate_lt (by norm_num) n V W)
    simp only [finishStep, hadd, Option.bind_eq_bind, Option.bind_some, ← add_assoc,
      u₁.load_of_lt hjn, u₁.store_of_lt hjn, decrement_succ (hqhat.trans (by norm_num)),
      Option.pure_def]
  · intro i hi
    rw [u₁.digit_update_of_ne (by omega), hframe i (.inl hi)]
  · rw [hkeep]
    omega
  · rw [hkeep, loses_iff hV hlt hu]
    constructor
    · rintro hexact ⟨i, hi, hle⟩
      have hzero : evalSum d (n + 1) (2 ^ 32) = 0 := by omega
      have hterm := Finset.sum_eq_zero_iff.mp hzero i (Finset.mem_range.mpr hi)
      have hdi : d i = 0 := (Nat.mul_eq_zero.mp hterm).resolve_right (by positivity)
      simp only [hd] at hdi
      omega
    · intro hnone
      have hzero : evalSum d (n + 1) (2 ^ 32) = 0 := by
        apply Finset.sum_eq_zero
        intro i hi
        have hsmall : u.digit (j + i) + v.digit i < 2 ^ 32 := by
          by_contra hge
          exact hnone ⟨i, Finset.mem_range.mp hi, not_lt.mp hge⟩
        simp only [hd]
        rw [Nat.div_eq_of_lt hsmall, zero_mul]
      omega

/-- The low digits and the top digit of an integer. -/
lemma top_unique {w r P : ℕ} {t s : ℤ} (hw : w < P) (hr : r < P)
    (heq : (w + t * P : ℤ) = r + s * P) : t = s ∧ w = r := by
  have hts : t = s := by
    rcases lt_trichotomy t s with h | h | h
    · have := Int.mul_le_mul_of_nonneg_right (Int.add_one_le_of_lt h) (Int.natCast_nonneg P)
      rw [add_mul, one_mul] at this
      omega
    · exact h
    · have := Int.mul_le_mul_of_nonneg_right (Int.add_one_le_of_lt h) (Int.natCast_nonneg P)
      rw [add_mul, one_mul] at this
      omega
  rw [hts] at heq
  exact ⟨hts, by omega⟩

/-- One pass of the division loop: the quotient digit is right, and so is the remainder, unless
the addition that corrects the estimate loses a carry. -/
lemma divStep_spec {V W : ℕ} (hv : Normalized v n) (hjn : j + n + 2 < maxDigits)
    (hV : V = window v 0 (n + 2)) (hW : W = window u j (n + 3)) (hWV : W < V * 2 ^ 32) :
    ∃ u', divStep v (n + 2) j u = some (u', W / V) ∧ (∀ i < j, u'.digit i = u.digit i) ∧
      window u' j (n + 2) ≤ W % V ∧
      (window u' j (n + 2) = W % V ↔ ¬ Loses (2 ^ 32) n V W) := by
  have hVlt : V < (2 ^ 32) ^ (n + 2) := hV ▸ window_lt v 0 (n + 2)
  have hVpow : (2 ^ 32) ^ (n + 1) ≤ V := hV ▸ hv.pow_le_window
  have hVpow' : (2 ^ 32) ^ n ≤ V :=
    (Nat.pow_le_pow_right (by norm_num) (Nat.le_succ n)).trans hVpow
  have hrem := Nat.mod_lt W (hVpow.trans_lt' (by positivity))
  obtain ⟨u₁, t, hdiff, hframe, hstep⟩ := divStep_eq hv hjn hV hW hWV
  have hwindow := window_lt u₁ j (n + 2)
  have hdiv : ((W / V : ℕ) : ℤ) * V + (W % V : ℕ) = W := by exact_mod_cast Nat.div_add_mod' W V
  rcases (div_le_estimate (by norm_num) hVpow' hWV).eq_or_lt with he | hlt
  · -- the difference is the remainder, and its top digit is zero
    rw [← he] at hdiff hstep
    have hsum : (window u₁ j (n + 2) + t * (2 ^ 32) ^ (n + 2) : ℤ) = (W % V : ℕ) := by
      rw [hdiff]
      linear_combination -hdiv
    obtain ⟨rfl, hw⟩ := top_unique hwindow (hrem.trans hVlt) (s := 0) (by simpa using hsum)
    refine ⟨u₁, hstep.trans (if_neg (lt_irrefl _)), hframe, hw.le, iff_of_true hw ?_⟩
    rintro ⟨hlt, -⟩
    exact hlt.ne he
  · have he : estimate (2 ^ 32) n V W = W / V + 1 :=
      (estimate_le_succ (by norm_num) hVpow).antisymm hlt
    rw [he] at hdiff hstep
    have hsum : (window u₁ j (n + 2) + t * (2 ^ 32) ^ (n + 2) : ℤ) = (W % V : ℕ) - V := by
      rw [hdiff, Nat.cast_succ]
      linear_combination -hdiv
    have hborrow : (window u₁ j (n + 2) + t * ((2 ^ 32) ^ (n + 2) : ℕ) : ℤ) =
        (W % V + (2 ^ 32) ^ (n + 2) - V : ℕ) + -1 * ((2 ^ 32) ^ (n + 2) : ℕ) := by
      rw [Nat.cast_sub (hVlt.le.trans (Nat.le_add_left _ _)), Nat.cast_add, Nat.cast_pow,
        Nat.cast_pow, Nat.cast_ofNat, hsum]
      ring
    obtain ⟨rfl, hw⟩ := top_unique hwindow (by omega) hborrow
    obtain ⟨u', hfinish, hframe', hle, hiff⟩ := finishStep_spec hv hjn hV hlt hw
    refine ⟨u', hstep.trans ((if_pos (by decide)).trans hfinish), ?_, hle, hiff⟩
    intro i hi
    rw [hframe' i hi, hframe i hi]

end BigUint

end MegaZK
