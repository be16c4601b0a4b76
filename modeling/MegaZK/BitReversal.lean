import Mathlib.Data.Nat.Bitwise
import Mathlib.Tactic.Common

/-! # Bit reversal

Transforms leave their values with the bits of the index reversed, and so are the leaves of a
commitment. -/

namespace MegaZK

/-- `reverse_bits`. -/
def reverseBits (x logN : ℕ) : ℕ :=
  (List.range logN).foldl
    (fun out i => if x.testBit i then out ||| 1 <<< (logN - 1 - i) else out) 0

/-- The loop sets the mirror images of the first `m` bits. -/
lemma testBit_reverseBits_from (x logN m i : ℕ) (hm : m ≤ logN) :
    ((List.range m).foldl
      (fun out i => if x.testBit i then out ||| 1 <<< (logN - 1 - i) else out) 0).testBit i =
      (decide (logN - m ≤ i ∧ i < logN) && x.testBit (logN - 1 - i)) := by
  induction m with
  | zero => simp
  | succ m ih =>
    have hbit : ∀ k, (1 <<< k).testBit i = decide (i = k) := by
      intro k
      rw [Nat.one_shiftLeft, Nat.testBit_two_pow]
      exact decide_eq_decide.mpr eq_comm
    rw [List.range_succ, List.foldl_append, List.foldl_cons, List.foldl_nil]
    by_cases hi : i = logN - 1 - m
    · have hnot : ¬ (logN - m ≤ i ∧ i < logN) := by omega
      have hin : logN - (m + 1) ≤ i ∧ i < logN := by omega
      have hmirror : logN - 1 - i = m := by omega
      have ih := ih (by omega)
      simp only [hnot, decide_false, Bool.false_and] at ih
      simp only [hin, hmirror]
      by_cases hx : x.testBit m
      · simp [hx, hi]
      · simp only [hx, Bool.false_eq_true, if_false]
        exact ih
    · have hiff : (logN - (m + 1) ≤ i ∧ i < logN) ↔ (logN - m ≤ i ∧ i < logN) := by omega
      rw [decide_eq_decide.mpr hiff, ← ih (by omega)]
      split_ifs with hx
      · simp [hbit, hi]
      · rfl

/-- `reverse_bits` mirrors the lowest bits. -/
lemma testBit_reverseBits (x logN i : ℕ) :
    (reverseBits x logN).testBit i = (decide (i < logN) && x.testBit (logN - 1 - i)) := by
  rw [reverseBits, testBit_reverseBits_from x logN logN i le_rfl]
  simp

lemma reverseBits_lt (x logN : ℕ) : reverseBits x logN < 2 ^ logN := by
  apply Nat.lt_pow_two_of_testBit
  intro i hi
  simp [testBit_reverseBits, Nat.not_lt.mpr hi]

/-- Bits that fit are mirrored back. -/
lemma reverseBits_reverseBits {x logN : ℕ} (hx : x < 2 ^ logN) :
    reverseBits (reverseBits x logN) logN = x := by
  apply Nat.eq_of_testBit_eq
  intro i
  rw [testBit_reverseBits]
  by_cases hi : i < logN
  · have hmirror : logN - 1 - (logN - 1 - i) = i := by omega
    have hlt : logN - 1 - i < logN := by omega
    simp [testBit_reverseBits, hi, hmirror, hlt]
  · have hbig : x < 2 ^ i := hx.trans_le (Nat.pow_le_pow_right (by decide) (by omega))
    simp [hi, Nat.testBit_lt_two_pow hbig]

/-- The low bits of an index choose the slice, and its high bits the position in it. -/
lemma reverseBits_mul_add {x p logN m : ℕ} (hp : p < 2 ^ m) :
    reverseBits (x * 2 ^ m + p) (logN + m) = reverseBits p m * 2 ^ logN + reverseBits x logN := by
  apply Nat.eq_of_testBit_eq
  intro i
  rw [testBit_reverseBits, mul_comm x, mul_comm (reverseBits p m),
    Nat.testBit_two_pow_mul_add _ (reverseBits_lt x logN), Nat.testBit_two_pow_mul_add _ hp,
    testBit_reverseBits, testBit_reverseBits]
  by_cases hi : i < logN
  · have hhigh : ¬ logN + m - 1 - i < m := by omega
    have hmirror : logN + m - 1 - i - m = logN - 1 - i := by omega
    have hlt : i < logN + m := by omega
    simp only [hi, hlt, hhigh, hmirror, if_true, if_false, decide_true]
  · by_cases hlt : i < logN + m
    · have hlow : logN + m - 1 - i < m := by omega
      have hmirror : logN + m - 1 - i = m - 1 - (i - logN) := by omega
      have hsub : i - logN < m := by omega
      rw [if_pos hlow, if_neg hi, hmirror]
      simp only [hlt, hsub, decide_true]
    · have hsub : ¬ i - logN < m := by omega
      rw [if_neg hi]
      simp only [hlt, hsub, decide_false, Bool.false_and]

end MegaZK
