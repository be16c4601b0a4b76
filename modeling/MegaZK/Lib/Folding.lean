import MegaZK.Lib.Horner

/-! # Folding polynomials

Chunks of coefficients are reduced with a challenge. The value of the folding at the power of a
point is a value of the polynomial that its values on the fibre of the power determine. -/

namespace Horner

open Finset

variable {R : Type*} [CommSemiring R]

/-- The coefficients of the folding of chunks of `m` at `b`. -/
def foldCoeffs (f : ℕ → R) (m : ℕ) (b : R) (c : ℕ) : R := evalSum (fun t => f (c * m + t)) m b

/-- The coefficients of the remainder modulo `X ^ m - y`. -/
def fibreCoeffs (f : ℕ → R) (m n : ℕ) (y : R) (t : ℕ) : R := evalSum (fun c => f (c * m + t)) n y

lemma evalSum_foldCoeffs (f : ℕ → R) (m n : ℕ) (b y : R) :
    evalSum (foldCoeffs f m b) n y = evalSum (fibreCoeffs f m n y) m b := by
  simp only [evalSum, foldCoeffs, fibreCoeffs, sum_mul]
  rw [sum_comm]
  apply sum_congr rfl
  intro t _
  apply sum_congr rfl
  intro c _
  rw [mul_right_comm]

/-- On the fibre of `y` the polynomial has the values of its remainder. -/
lemma evalSum_fibreCoeffs (f : ℕ → R) {m n : ℕ} {y z : R} (hz : z ^ m = y) :
    evalSum (fibreCoeffs f m n y) m z = evalSum f (n * m) z := by
  rw [← evalSum_foldCoeffs, ← hz]
  exact evalSum_tiles f m n z

/-- The folding has as many chunks as there are coefficients for. -/
lemma foldCoeffs_eq_zero {f : ℕ → R} {m n : ℕ} (hf : ∀ k, n * m ≤ k → f k = 0) (b : R) {c : ℕ}
    (hc : n ≤ c) : foldCoeffs f m b c = 0 := by
  rw [foldCoeffs, evalSum]
  apply sum_eq_zero
  intro t _
  have hle : n * m ≤ c * m + t := (Nat.mul_le_mul_right m hc).trans (Nat.le_add_right _ _)
  rw [hf _ hle, zero_mul]

/-- Coefficients that are zero do not count. -/
lemma evalSum_of_le {f : ℕ → R} {m n : ℕ} (hmn : m ≤ n) (hf : ∀ k, m ≤ k → f k = 0) (z : R) :
    evalSum f n z = evalSum f m z := by
  obtain ⟨d, rfl⟩ := Nat.exists_eq_add_of_le hmn
  have hzero : evalSum (fun j => f (m + j)) d z = 0 := by
    apply sum_eq_zero
    intro j _
    dsimp only
    rw [hf _ (Nat.le_add_right m j), zero_mul]
  rw [evalSum_add, hzero, mul_zero, add_zero]

end Horner
