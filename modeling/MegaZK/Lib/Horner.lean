import Mathlib.Algebra.BigOperators.Intervals
import Mathlib.Algebra.BigOperators.Ring.Finset
import Mathlib.Tactic.Ring

/-! # Evaluation loops

Horner's rule as a loop from the last coefficient down, evaluation by tiles, and the powers that
squaring loops compute. -/

namespace Horner

open Finset

variable {R : Type*} [CommSemiring R]

/-- The value at `z` of the polynomial with coefficients `f 0, …, f (n - 1)`. -/
def evalSum (f : ℕ → R) (n : ℕ) (z : R) : R := ∑ k ∈ range n, f k * z ^ k

/-- `for (j = n; j > 0;) acc = acc * z + f[--j]`. -/
def hornerFrom (f : ℕ → R) (z : R) : ℕ → R → R
  | 0, acc => acc
  | n + 1, acc => hornerFrom f z n (acc * z + f n)

/-- The loop started at zero. -/
def horner (f : ℕ → R) (n : ℕ) (z : R) : R := hornerFrom f z n 0

lemma hornerFrom_eq (f : ℕ → R) (z : R) (n : ℕ) (acc : R) :
    hornerFrom f z n acc = acc * z ^ n + evalSum f n z := by
  induction n generalizing acc with
  | zero => simp [hornerFrom, evalSum]
  | succ n ih =>
    rw [hornerFrom, ih, evalSum, evalSum, sum_range_succ]
    ring

lemma horner_eq (f : ℕ → R) (n : ℕ) (z : R) : horner f n z = evalSum f n z := by
  rw [horner, hornerFrom_eq, zero_mul, zero_add]

lemma evalSum_congr {f g : ℕ → R} {n : ℕ} (h : ∀ k < n, f k = g k) (z : R) :
    evalSum f n z = evalSum g n z := by
  unfold evalSum
  apply sum_congr rfl
  intro k hk
  rw [h k (mem_range.mp hk)]

/-- Tiles of `m` coefficients, put together at `z ^ m`. -/
lemma evalSum_tiles (f : ℕ → R) (m t : ℕ) (z : R) :
    evalSum (fun s => evalSum (fun j => f (s * m + j)) m z) t (z ^ m) = evalSum f (t * m) z := by
  induction t with
  | zero => simp [evalSum]
  | succ t ih =>
    have hlast : evalSum f ((t + 1) * m) z =
        evalSum f (t * m) z + evalSum (fun j => f (t * m + j)) m z * (z ^ m) ^ t := by
      unfold evalSum
      rw [Nat.succ_mul, sum_range_add, sum_mul]
      congr 1
      apply sum_congr rfl
      intro j _
      rw [pow_add, ← pow_mul, mul_comm m t]
      ring
    rw [hlast, ← ih]
    unfold evalSum
    rw [sum_range_succ]

/-- The first `a` coefficients and those after them. -/
lemma evalSum_add (f : ℕ → R) (a b : ℕ) (z : R) :
    evalSum f (a + b) z = evalSum f a z + z ^ a * evalSum (fun j => f (a + j)) b z := by
  rw [evalSum, sum_range_add, evalSum, evalSum, mul_sum]
  congr 1
  apply sum_congr rfl
  intro j _
  rw [pow_add]
  ring

/-! ### Powers -/

/-- Squaring `n` times. -/
def squareTimes : ℕ → R → R
  | 0, z => z
  | n + 1, z => squareTimes n (z * z)

lemma squareTimes_eq (n : ℕ) (z : R) : squareTimes n z = z ^ 2 ^ n := by
  induction n generalizing z with
  | zero => simp [squareTimes]
  | succ n ih =>
    rw [squareTimes, ih, ← pow_two, ← pow_mul, pow_succ' 2 n]

/-- `while (cnt < len) { z = z * z; cnt *= 2; }`, for at most `fuel` rounds. -/
def squareWhile (len : ℕ) : ℕ → ℕ → R → R
  | 0, _, z => z
  | fuel + 1, cnt, z => if cnt < len then squareWhile len fuel (cnt * 2) (z * z) else z

lemma squareWhile_two_pow {k fuel : ℕ} (i : ℕ) (hfuel : k ≤ i + fuel) (hi : i ≤ k) (z : R) :
    squareWhile (2 ^ k) fuel (2 ^ i) z = z ^ 2 ^ (k - i) := by
  induction fuel generalizing i z with
  | zero =>
    obtain rfl : i = k := by omega
    simp [squareWhile]
  | succ fuel ih =>
    rw [squareWhile]
    by_cases hlt : i < k
    · rw [if_pos (Nat.pow_lt_pow_right (by norm_num) hlt), ← pow_succ,
        ih (i + 1) (by omega) (by omega), ← pow_two, ← pow_mul, ← pow_succ']
      congr 2
      omega
    · obtain rfl : i = k := by omega
      simp

lemma squareWhile_one {k fuel : ℕ} (hfuel : k ≤ fuel) (z : R) :
    squareWhile (2 ^ k) fuel 1 z = z ^ 2 ^ k := by
  simpa using squareWhile_two_pow 0 (by omega : k ≤ 0 + fuel) (Nat.zero_le k) z

/-- The power `z ^ x` from the low `n` bits of `x`, lowest first. -/
def powBits : ℕ → ℕ → R → R → R
  | 0, _, _, acc => acc
  | n + 1, x, z, acc => powBits n (x >>> 1) (z * z) (if x % 2 = 1 then acc * z else acc)

lemma powBits_eq (n x : ℕ) (z acc : R) : powBits n x z acc = acc * z ^ (x % 2 ^ n) := by
  induction n generalizing x z acc with
  | zero => simp [powBits, Nat.mod_one]
  | succ n ih =>
    have hmod : x % 2 ^ (n + 1) = x % 2 + 2 * (x / 2 % 2 ^ n) := by
      rw [pow_succ', Nat.mod_mul]
    rw [powBits, ih, hmod, pow_add, pow_mul, pow_two, Nat.shiftRight_one]
    rcases Nat.mod_two_eq_zero_or_one x with h | h
    · simp [h]
    · simp [h, mul_assoc]

/-- `while (c <= x) { if (t % 2 == 1) acc *= z; z *= z; c *= 2; t /= 2; }` with a counter below `w`,
if it ends in less than `fuel` rounds. -/
def powWhile (w x : ℕ) : ℕ → ℕ → ℕ → R → R → Option R
  | 0, _, _, _, _ => none
  | fuel + 1, c, t, z, acc =>
    if c ≤ x then powWhile w x fuel (c * 2 % w) (t / 2) (z * z) (if t % 2 = 1 then acc * z else acc)
    else some acc

/-- After `i` rounds the counter is `2 ^ i`, and the remaining bits are those above. -/
lemma powWhile_two_pow {w x k fuel i : ℕ} (hx : x < 2 ^ k) (hw : 2 ^ k < w) (hi : i ≤ k)
    (hfuel : k - i < fuel) (z acc : R) :
    powWhile w x fuel (2 ^ i) (x / 2 ^ i) z acc = some (acc * z ^ (x / 2 ^ i)) := by
  induction fuel generalizing i z acc with
  | zero => omega
  | succ fuel ih =>
    rw [powWhile]
    by_cases hle : 2 ^ i ≤ x
    · have hlt : i < k := (Nat.pow_lt_pow_iff_right (by decide)).mp (hle.trans_lt hx)
      have hcounter : 2 ^ i * 2 % w = 2 ^ (i + 1) := by
        rw [← pow_succ, Nat.mod_eq_of_lt]
        exact (Nat.pow_le_pow_right (by decide) hlt).trans_lt hw
      have hbits : x / 2 ^ i = x / 2 ^ i % 2 + 2 * (x / 2 ^ (i + 1)) := by
        rw [pow_succ, ← Nat.div_div_eq_div_mul]
        omega
      rw [if_pos hle, hcounter, Nat.div_div_eq_div_mul, ← pow_succ, ih hlt (by omega)]
      conv_rhs => rw [hbits]
      rw [pow_add, pow_mul, pow_two]
      rcases Nat.mod_two_eq_zero_or_one (x / 2 ^ i) with h | h
      · simp [h]
      · simp [h, mul_assoc]
    · rw [if_neg hle, Nat.div_eq_of_lt (not_le.mp hle), pow_zero, mul_one]

lemma powWhile_eq {w x k fuel : ℕ} (hx : x < 2 ^ k) (hw : 2 ^ k < w) (hfuel : k < fuel) (z : R) :
    powWhile w x fuel 1 x z 1 = some (z ^ x) := by
  simpa using powWhile_two_pow hx hw (Nat.zero_le k) (by omega) z 1

/-- From half its width on, a counter starts over at zero, and never ends above `x`. -/
lemma powWhile_eq_none {k x c : ℕ} (hx : 2 ^ k ≤ x) (hc : c = 0 ∨ ∃ i ≤ k, c = 2 ^ i) {fuel : ℕ}
    (t : ℕ) (z acc : R) : powWhile (2 ^ (k + 1)) x fuel c t z acc = none := by
  induction fuel generalizing c t z acc with
  | zero => rfl
  | succ fuel ih =>
    have hle : c ≤ x := by
      rcases hc with rfl | ⟨i, hi, rfl⟩
      · exact Nat.zero_le x
      · exact (Nat.pow_le_pow_right (by decide) hi).trans hx
    rw [powWhile, if_pos hle]
    apply ih
    rcases hc with rfl | ⟨i, hi, rfl⟩
    · exact .inl (by simp)
    · rw [← pow_succ]
      rcases hi.eq_or_lt with rfl | hlt
      · exact .inl (Nat.mod_self _)
      · exact .inr ⟨i + 1, hlt, Nat.mod_eq_of_lt (Nat.pow_lt_pow_right (by decide) (by omega))⟩

/-- `while (c != n) { if (t % 2 == 1) acc *= z; z *= z; c *= 2; t /= 2; }` with a counter below `w`:
what `acc` and `z` are in the end, if it ends in less than `fuel` rounds. -/
def powUntil (w n : ℕ) : ℕ → ℕ → ℕ → R → R → Option (R × R)
  | 0, _, _, _, _ => none
  | fuel + 1, c, t, z, acc =>
    if c = n then some (acc, z)
    else powUntil w n fuel (c * 2 % w) (t / 2) (z * z) (if t % 2 = 1 then acc * z else acc)

/-- After `i` rounds the counter is `2 ^ i`. -/
lemma powUntil_two_pow {w k fuel i : ℕ} (hw : 2 ^ k < w) (hi : i ≤ k) (hfuel : k - i < fuel)
    (t : ℕ) (z acc : R) :
    powUntil w (2 ^ k) fuel (2 ^ i) t z acc =
      some (acc * z ^ (t % 2 ^ (k - i)), z ^ 2 ^ (k - i)) := by
  induction fuel generalizing i t z acc with
  | zero => omega
  | succ fuel ih =>
    rw [powUntil]
    by_cases heq : i = k
    · subst heq
      simp [Nat.mod_one]
    · have hlt : i < k := by omega
      have hne : 2 ^ i ≠ 2 ^ k := fun h => heq (Nat.pow_right_injective (le_refl 2) h)
      have hcounter : 2 ^ i * 2 % w = 2 ^ (i + 1) := by
        rw [← pow_succ, Nat.mod_eq_of_lt]
        exact (Nat.pow_le_pow_right (by decide) hlt).trans_lt hw
      have hexp : k - i = k - (i + 1) + 1 := by omega
      have hmod : t % 2 ^ (k - i) = t % 2 + 2 * (t / 2 % 2 ^ (k - (i + 1))) := by
        rw [hexp, pow_succ', Nat.mod_mul]
      rw [if_neg hne, hcounter, ih hlt (by omega), hmod, hexp, pow_succ' 2, pow_add z, pow_mul z,
        pow_mul z, pow_two]
      rcases Nat.mod_two_eq_zero_or_one t with h | h
      · simp [h]
      · simp [h, mul_assoc]

lemma powUntil_eq {w k fuel x : ℕ} (hw : 2 ^ k < w) (hfuel : k < fuel) (hx : x < 2 ^ k) (z : R) :
    powUntil w (2 ^ k) fuel 1 x z 1 = some (z ^ x, z ^ 2 ^ k) := by
  have h := powUntil_two_pow hw (Nat.zero_le k) (by omega : k - 0 < fuel) x z 1
  rwa [Nat.sub_zero, Nat.mod_eq_of_lt hx, one_mul, pow_zero] at h

end Horner
