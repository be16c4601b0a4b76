import MegaZK.Lib.Horner
import Mathlib.Tactic.Linarith

/-! # Numbers in a radix

The value of the first `n` digits of a sequence, how it splits, and how it is compared. -/

namespace Radix

open Horner Finset

variable {b : ℕ} {d e : ℕ → ℕ}

@[simp] lemma evalSum_zero (d : ℕ → ℕ) (b : ℕ) : evalSum d 0 b = 0 := by simp [evalSum]

lemma evalSum_succ (d : ℕ → ℕ) (n b : ℕ) :
    evalSum d (n + 1) b = evalSum d n b + d n * b ^ n := sum_range_succ _ _

lemma evalSum_lt {n : ℕ} (hd : ∀ i < n, d i < b) : evalSum d n b < b ^ n := by
  induction n with
  | zero => simp
  | succ n ih =>
    have hlow := ih fun i hi => hd i (Nat.lt_succ_of_lt hi)
    have htop : (d n + 1) * b ^ n ≤ b * b ^ n := Nat.mul_le_mul_right _ (hd n (Nat.lt_succ_self n))
    rw [evalSum_succ, pow_succ, mul_comm (b ^ n) b]
    rw [add_mul, one_mul] at htop
    omega

/-- The lowest digit and the rest. -/
lemma evalSum_succ' (d : ℕ → ℕ) (n b : ℕ) :
    evalSum d (n + 1) b = d 0 + b * evalSum (fun i => d (i + 1)) n b := by
  rw [add_comm n 1, evalSum_add]
  simp [evalSum, add_comm]

/-- Zero digits at the top do not count. -/
lemma evalSum_of_zero {n m : ℕ} (hnm : n ≤ m) (hd : ∀ i, n ≤ i → i < m → d i = 0) :
    evalSum d m b = evalSum d n b := by
  obtain ⟨k, rfl⟩ := Nat.exists_eq_add_of_le hnm
  rw [evalSum_add, evalSum, evalSum, sum_eq_zero (s := range k), mul_zero, add_zero]
  intro i hi
  have := mem_range.mp hi
  rw [hd (n + i) (by omega) (by omega), zero_mul]

/-- A nonzero top digit. -/
lemma le_evalSum {n : ℕ} (hd : d n ≠ 0) : b ^ n ≤ evalSum d (n + 1) b := by
  rw [evalSum_succ]
  have := Nat.mul_le_mul_right (b ^ n) (Nat.one_le_iff_ne_zero.mpr hd)
  omega

/-- The first different digit from the top decides. -/
lemma evalSum_lt_of_top {n : ℕ} (hd : ∀ i < n, d i < b) (htop : d n < e n) :
    evalSum d (n + 1) b < evalSum e (n + 1) b := by
  have hlow := evalSum_lt hd
  have hmul : (d n + 1) * b ^ n ≤ e n * b ^ n := Nat.mul_le_mul_right _ htop
  rw [add_mul, one_mul] at hmul
  rw [evalSum_succ, evalSum_succ]
  omega

/-! ### Comparison by digits -/

/-- The difference of the first different digits from the top. -/
def topDiff (d e : ℕ → ℕ) : ℕ → ℤ
  | 0 => 0
  | n + 1 => if d n = e n then topDiff d e n else (e n : ℤ) - d n

/-- It has the sign of the difference. -/
lemma evalSum_le_iff {n : ℕ} (hd : ∀ i < n, d i < b) (he : ∀ i < n, e i < b) :
    evalSum d n b ≤ evalSum e n b ↔ 0 ≤ topDiff d e n := by
  induction n with
  | zero => simp [topDiff]
  | succ n ih =>
    rw [topDiff]
    rcases lt_trichotomy (d n) (e n) with hlt | heq | hgt
    · have hvalue := evalSum_lt_of_top (fun i hi => hd i (Nat.lt_succ_of_lt hi)) hlt
      rw [if_neg hlt.ne]
      omega
    · rw [if_pos heq, evalSum_succ, evalSum_succ, heq, add_le_add_iff_right]
      exact ih (fun i hi => hd i (Nat.lt_succ_of_lt hi)) fun i hi => he i (Nat.lt_succ_of_lt hi)
    · have hvalue := evalSum_lt_of_top (fun i hi => he i (Nat.lt_succ_of_lt hi)) hgt
      rw [if_neg hgt.ne']
      omega

lemma topDiff_lt {n : ℕ} (hb : 0 < b) (hd : ∀ i < n, d i < b) (he : ∀ i < n, e i < b) :
    -(b : ℤ) < topDiff d e n ∧ topDiff d e n < b := by
  induction n with
  | zero =>
    rw [topDiff]
    omega
  | succ n ih =>
    rw [topDiff]
    split_ifs with heq
    · exact ih (fun i hi => hd i (Nat.lt_succ_of_lt hi)) fun i hi => he i (Nat.lt_succ_of_lt hi)
    · have hdn := hd n (Nat.lt_succ_self n)
      have hen := he n (Nat.lt_succ_self n)
      omega

end Radix
