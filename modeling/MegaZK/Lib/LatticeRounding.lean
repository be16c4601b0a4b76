import Mathlib.Algebra.Order.Ring.Abs
import Mathlib.Tactic.LinearCombination
import Mathlib.Tactic.Ring

/-! # Rounding in a lattice of rank two

A vector `(k, 0)` minus the lattice vector whose coefficients are its rounded coordinates is short:
half the sum of the basis vectors. -/

namespace LatticeRounding

variable {a₁ a₂ b₁ b₂ n k c₁ c₂ : ℤ}

/-- A combination of coordinates that are off by at most one half. -/
lemma abs_combination_le {x y e₁ e₂ z : ℤ} (hn : 0 < n) (h₁ : |2 * e₁| ≤ n) (h₂ : |2 * e₂| ≤ n)
    (h : n * z = x * e₁ + y * e₂) : |2 * z| ≤ |x| + |y| := by
  have hmul : n * |2 * z| ≤ n * (|x| + |y|) := by
    calc n * |2 * z| = |n * (2 * z)| := by rw [abs_mul n, abs_of_pos hn]
      _ = |x * (2 * e₁) + y * (2 * e₂)| := congrArg abs (by linear_combination 2 * h)
      _ ≤ |x| * |2 * e₁| + |y| * |2 * e₂| := by
          rw [← abs_mul, ← abs_mul]
          exact abs_add_le _ _
      _ ≤ |x| * n + |y| * n := by
          apply add_le_add
          · exact mul_le_mul_of_nonneg_left h₁ (abs_nonneg x)
          · exact mul_le_mul_of_nonneg_left h₂ (abs_nonneg y)
      _ = n * (|x| + |y|) := by ring
  exact le_of_mul_le_mul_left hmul hn

variable (hdet : a₁ * b₂ - a₂ * b₁ = n) (hn : 0 < n) (h₁ : |2 * (b₂ * k - n * c₁)| ≤ n)
  (h₂ : |2 * (-b₁ * k - n * c₂)| ≤ n)
include hdet hn h₁ h₂

lemma abs_fst_le : |2 * (k - c₁ * a₁ - c₂ * a₂)| ≤ |a₁| + |a₂| := by
  apply abs_combination_le hn h₁ h₂
  rw [← hdet]
  ring

lemma abs_snd_le : |2 * (c₁ * b₁ + c₂ * b₂)| ≤ |b₁| + |b₂| := by
  rw [← abs_neg, ← mul_neg]
  apply abs_combination_le hn h₁ h₂
  rw [← hdet]
  ring

end LatticeRounding
