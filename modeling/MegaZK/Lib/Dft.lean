import Mathlib.Algebra.BigOperators.Ring.Finset
import Mathlib.Algebra.Field.GeomSum
import Mathlib.RingTheory.RootsOfUnity.PrimitiveRoots
import Mathlib.Tactic.FieldSimp

/-! # The discrete Fourier transform

Evaluation of a polynomial of `n` coefficients at the powers of a primitive `n`-th root of unity,
and the interpolation that inverts it. -/

namespace Dft

open Finset

variable {F : Type*} [Field F]

/-- The value at `ω ^ i` of the polynomial with coefficients `c`. -/
def dft (ω : F) (n : ℕ) (c : ℕ → F) (i : ℕ) : F := ∑ k ∈ range n, c k * ω ^ (i * k)

/-- The coefficients of the polynomial with value `v i` at `ω ^ i`. -/
def idft (ω : F) (n : ℕ) (v : ℕ → F) (k : ℕ) : F := (n : F)⁻¹ * dft ω⁻¹ n v k

variable {ω : F} {n : ℕ}

lemma dft_congr {c c' : ℕ → F} (h : ∀ k < n, c k = c' k) : dft ω n c = dft ω n c' := by
  funext i
  unfold dft
  apply sum_congr rfl
  intro k hk
  rw [h k (mem_range.mp hk)]

lemma idft_congr {v v' : ℕ → F} (h : ∀ i < n, v i = v' i) : idft ω n v = idft ω n v' := by
  funext k
  unfold idft
  rw [dft_congr h]

@[simp] lemma dft_zero : dft ω n (fun _ => 0) = fun _ => 0 := by
  funext i
  simp [dft]

@[simp] lemma idft_zero : idft ω n (fun _ => 0) = fun _ => 0 := by
  funext k
  simp [idft]

/-- The powers of an `n`-th root of unity other than one sum to zero. -/
lemma sum_pow_eq_zero {x : F} (hx : x ≠ 1) (hn : x ^ n = 1) : ∑ k ∈ range n, x ^ k = 0 := by
  rw [geom_sum_eq hx, hn, sub_self, zero_div]

/-- Orthogonality of the rows of the transform. -/
lemma sum_mul_inv_pow (hω : IsPrimitiveRoot ω n) {i j : ℕ} (hi : i < n) (hj : j < n) :
    ∑ k ∈ range n, ω ^ (i * k) * ω⁻¹ ^ (j * k) = if i = j then (n : F) else 0 := by
  have hω0 : ω ≠ 0 := hω.ne_zero (by omega)
  have hterm : ∀ k, ω ^ (i * k) * ω⁻¹ ^ (j * k) = (ω ^ i * (ω ^ j)⁻¹) ^ k := by
    intro k
    rw [pow_mul, pow_mul, inv_pow, mul_pow]
  simp only [hterm]
  split_ifs with hij
  · subst hij
    simp [mul_inv_cancel₀ (pow_ne_zero i hω0)]
  · apply sum_pow_eq_zero
    · intro h
      apply hij
      apply hω.pow_inj hi hj
      exact (mul_inv_eq_one₀ (pow_ne_zero j hω0)).mp h
    · rw [mul_pow, inv_pow, ← pow_mul, ← pow_mul, mul_comm i, mul_comm j, pow_mul, pow_mul,
        hω.pow_eq_one]
      simp

/-- Transforming with `ω` what was transformed with its inverse multiplies by `n`. -/
lemma dft_dft_inv (hω : IsPrimitiveRoot ω n) (v : ℕ → F) {i : ℕ} (hi : i < n) :
    dft ω n (dft ω⁻¹ n v) i = n * v i := by
  calc dft ω n (dft ω⁻¹ n v) i
      = ∑ k ∈ range n, ∑ j ∈ range n, v j * ω⁻¹ ^ (k * j) * ω ^ (i * k) := by
        simp only [dft, sum_mul]
    _ = ∑ j ∈ range n, v j * ∑ k ∈ range n, ω ^ (i * k) * ω⁻¹ ^ (j * k) := by
        rw [sum_comm]
        apply sum_congr rfl
        intro j _
        rw [mul_sum]
        apply sum_congr rfl
        intro k _
        rw [mul_comm k j, mul_assoc, mul_comm (ω⁻¹ ^ _)]
    _ = ∑ j ∈ range n, v j * (if i = j then (n : F) else 0) := by
        apply sum_congr rfl
        intro j hj
        rw [sum_mul_inv_pow hω hi (mem_range.mp hj)]
    _ = n * v i := by simp [hi, mul_comm]

lemma dft_const_mul (a : F) (c : ℕ → F) (i : ℕ) : dft ω n (fun k => a * c k) i = a * dft ω n c i := by
  simp only [dft, mul_sum, mul_assoc]

lemma dft_idft (hω : IsPrimitiveRoot ω n) (v : ℕ → F) {i : ℕ} (hi : i < n) :
    dft ω n (idft ω n v) i = v i := by
  have : NeZero n := ⟨by omega⟩
  have hn : (n : F) ≠ 0 := hω.neZero'.ne
  unfold idft
  rw [dft_const_mul, dft_dft_inv hω v hi, inv_mul_cancel_left₀ hn]

lemma idft_dft (hω : IsPrimitiveRoot ω n) (c : ℕ → F) {k : ℕ} (hk : k < n) :
    idft ω n (dft ω n c) k = c k := by
  have : NeZero n := ⟨by omega⟩
  have hn : (n : F) ≠ 0 := hω.neZero'.ne
  have h := dft_dft_inv hω.inv c hk
  rw [inv_inv] at h
  unfold idft
  rw [h, inv_mul_cancel_left₀ hn]

end Dft
