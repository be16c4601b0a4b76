import Mathlib.Algebra.BigOperators.Group.Finset.Basic
import Mathlib.Algebra.BigOperators.Ring.Finset
import Mathlib.Algebra.BigOperators.Intervals
import Mathlib.Tactic.Ring
import Mathlib.Tactic.LinearCombination

/-! # Butterfly networks

The transform of `2 ^ logN` values by stages of butterflies, in place and without a permutation
before them. Stage `s` works on blocks of `2 ^ (logN - s)` values. After it, a block holds the
remainder of the polynomial modulo one of the factors of `x ^ (2 ^ logN) - 1`: the residues are split
in two at every stage, and the exponents of their roots follow a numbering of the blocks. -/

namespace Butterfly

open Finset

/-- The numbering of the blocks of every stage: the halves of block `r` keep its exponent and take it
with one more bit. -/
structure Numbering (rev : ℕ → ℕ → ℕ) : Prop where
  zero : rev 0 0 = 0
  low : ∀ r s, r < 2 ^ s → rev (2 * r) (s + 1) = rev r s
  high : ∀ r s, r < 2 ^ s → rev (2 * r + 1) (s + 1) = rev r s + 2 ^ s

variable {R : Type*} [CommRing R] (ω : R) (rev : ℕ → ℕ → ℕ)

/-- The butterflies of one stage on blocks of `2 * m` values. -/
def IsStage (s m : ℕ) (v v' : ℕ → R) : Prop :=
  ∀ r < 2 ^ s, ∀ t < m,
    v' (r * (2 * m) + t) =
        v (r * (2 * m) + t) + ω ^ (rev r s * m) * v (r * (2 * m) + t + m) ∧
      v' (r * (2 * m) + t + m) =
        v (r * (2 * m) + t) - ω ^ (rev r s * m) * v (r * (2 * m) + t + m)

/-- Block `r` of `m` values after `s` stages: the value at `ω ^ (rev r s * m)` of the coefficients
that are `m` apart. -/
def residue (s m : ℕ) (c : ℕ → R) (r t : ℕ) : R :=
  ∑ k ∈ range (2 ^ s), c (k * m + t) * ω ^ (rev r s * m * k)

lemma sum_range_two_mul {M : Type*} [AddCommMonoid M] (f : ℕ → M) (n : ℕ) :
    ∑ k ∈ range (2 * n), f k = ∑ k ∈ range n, (f (2 * k) + f (2 * k + 1)) := by
  induction n with
  | zero => simp
  | succ n ih => rw [Nat.mul_succ, sum_range_succ, sum_range_succ, ih, sum_range_succ, add_assoc]

variable {ω rev} {logN s m : ℕ} {c v v' : ℕ → R}

/-- A stage splits a residue in two. -/
lemma residue_succ (hrev : Numbering rev) (hω : ω ^ 2 ^ (logN - 1) = -1)
    (hm : 2 ^ s * m = 2 ^ (logN - 1)) {r t : ℕ} (hr : r < 2 ^ s) :
    residue ω rev (s + 1) m c (2 * r) t =
        residue ω rev s (2 * m) c r t +
          ω ^ (rev r s * m) * residue ω rev s (2 * m) c r (t + m) ∧
      residue ω rev (s + 1) m c (2 * r + 1) t =
        residue ω rev s (2 * m) c r t -
          ω ^ (rev r s * m) * residue ω rev s (2 * m) c r (t + m) := by
  have heven : ∀ k, 2 * k * m + t = k * (2 * m) + t := fun k => by ring
  have hodd : ∀ k, (2 * k + 1) * m + t = k * (2 * m) + (t + m) := fun k => by ring
  have hpow : ∀ k, ω ^ (2 ^ s * m * (2 * k)) = 1 := by
    intro k
    rw [hm, pow_mul, hω, pow_mul, neg_one_sq, one_pow]
  constructor
  · rw [residue, pow_succ, mul_comm (2 ^ s), sum_range_two_mul, residue, residue, mul_sum,
      ← sum_add_distrib, hrev.low r s hr]
    refine sum_congr rfl fun k _ => ?_
    rw [heven, hodd]
    ring
  · rw [residue, pow_succ, mul_comm (2 ^ s), sum_range_two_mul, residue, residue, mul_sum,
      ← sum_sub_distrib, hrev.high r s hr]
    refine sum_congr rfl fun k _ => ?_
    have hsplit : ω ^ ((rev r s + 2 ^ s) * m * (2 * k)) = ω ^ (rev r s * m * (2 * k)) := by
      rw [add_mul, add_mul, pow_add, hpow, mul_one]
    have hsplit' : ω ^ ((rev r s + 2 ^ s) * m * (2 * k + 1)) =
        -ω ^ (rev r s * m * (2 * k + 1)) := by
      rw [add_mul, add_mul, pow_add, mul_add (2 ^ s * m), pow_add, hpow, mul_one, hm, hω]
      ring
    rw [heven, hodd, hsplit, hsplit']
    ring

/-- What holds of the values after `s` stages. -/
def Reduced (ω : R) (rev : ℕ → ℕ → ℕ) (s m : ℕ) (c v : ℕ → R) : Prop :=
  ∀ r < 2 ^ s, ∀ t < m, v (r * m + t) = residue ω rev s m c r t

lemma reduced_zero (hrev : Numbering rev) (c : ℕ → R) (m : ℕ) : Reduced ω rev 0 m c c := by
  intro r hr t _
  obtain rfl : r = 0 := by simpa using hr
  simp [residue, hrev.zero]

/-- Every stage preserves the invariant. -/
lemma Reduced.step (hrev : Numbering rev) (hω : ω ^ 2 ^ (logN - 1) = -1)
    (hm : 2 ^ s * m = 2 ^ (logN - 1)) (hv : Reduced ω rev s (2 * m) c v)
    (hstage : IsStage ω rev s m v v') : Reduced ω rev (s + 1) m c v' := by
  intro r' hr' t ht
  obtain ⟨r, rfl | rfl⟩ := Nat.even_or_odd' r'
  · have hr : r < 2 ^ s := by
      rw [pow_succ] at hr'
      omega
    have hindex : 2 * r * m + t = r * (2 * m) + t := by ring
    rw [hindex, (hstage r hr t ht).1, hv r hr t (by omega), add_assoc, hv r hr (t + m) (by omega),
      (residue_succ hrev hω hm hr).1]
  · have hr : r < 2 ^ s := by
      rw [pow_succ] at hr'
      omega
    have hindex : (2 * r + 1) * m + t = r * (2 * m) + t + m := by ring
    rw [hindex, (hstage r hr t ht).2, hv r hr t (by omega), add_assoc, hv r hr (t + m) (by omega),
      (residue_succ hrev hω hm hr).2]

/-- After the last stage the blocks are single values, those of the polynomial at the roots. -/
lemma Reduced.eval (hv : Reduced ω rev logN 1 c v) {i : ℕ} (hi : i < 2 ^ logN) :
    v i = ∑ k ∈ range (2 ^ logN), c k * ω ^ (rev i logN * k) := by
  have h := hv i hi 0 zero_lt_one
  simpa [residue] using h

end Butterfly
