import Mathlib.Algebra.Field.ZMod
import MegaZK.Lib.Radix

/-! # Digits in a prime field

Digits that are checked by a product of differences, and the numbers they are combined to. A
combination does not wrap where the base to the number of digits stays below the prime. -/

namespace PrimeDigits

open Horner Radix

variable {p : ℕ} [Fact p.Prime]

/-- A product of differences vanishes at the numbers it runs over, and only there. -/
lemma prod_sub_eq_zero_iff {R : Type*} [CommRing R] [IsDomain R] {bound : ℕ} {x : R} :
    ((List.range bound).map fun k : ℕ => x - k).prod = 0 ↔ ∃ k < bound, x = k := by
  rw [List.prod_eq_zero_iff, List.mem_map]
  constructor
  · rintro ⟨k, hk, hzero⟩
    exact ⟨k, List.mem_range.mp hk, sub_eq_zero.mp hzero⟩
  · rintro ⟨k, hk, hx⟩
    exact ⟨k, List.mem_range.mpr hk, sub_eq_zero.mpr hx⟩

lemma val_lt_of_prod_eq_zero {bound : ℕ} (hbound : bound ≤ p) {x : ZMod p}
    (h : ((List.range bound).map fun k : ℕ => x - k).prod = 0) : x.val < bound := by
  obtain ⟨k, hk, rfl⟩ := prod_sub_eq_zero_iff.mp h
  rwa [ZMod.val_natCast_of_lt (hk.trans_le hbound)]

/-- Digits are combined as numbers. -/
lemma evalSum_natCast {R : Type*} [CommSemiring R] {f : ℕ → R} {d : ℕ → ℕ} {n : ℕ}
    (h : ∀ i < n, f i = d i) (b : ℕ) : evalSum f n (b : R) = (evalSum d n b : ℕ) := by
  unfold evalSum
  rw [Nat.cast_sum]
  apply Finset.sum_congr rfl
  intro i hi
  rw [h i (Finset.mem_range.mp hi), Nat.cast_mul, Nat.cast_pow]

lemma evalSum_val (f : ℕ → ZMod p) (n b : ℕ) :
    evalSum f n (b : ZMod p) = (evalSum (fun i => (f i).val) n b : ℕ) :=
  evalSum_natCast (fun i _ => (ZMod.natCast_zmod_val (f i)).symm) b

/-- Digits that do not reach the prime combine to their number. -/
lemma val_evalSum {f : ℕ → ZMod p} {n b : ℕ} (hdigit : ∀ i < n, (f i).val < b)
    (hfit : b ^ n ≤ p) :
    (evalSum f n (b : ZMod p)).val = evalSum (fun i => (f i).val) n b := by
  rw [evalSum_val, ZMod.val_natCast_of_lt ((evalSum_lt hdigit).trans_le hfit)]

/-- The low digits of a number. -/
lemma evalSum_digits_mod (b n x : ℕ) : evalSum (fun i => x / b ^ i % b) n b = x % b ^ n := by
  induction n with
  | zero => simp [Nat.mod_one]
  | succ n ih => rw [evalSum_succ, ih, pow_succ, Nat.mod_mul, mul_comm (x / b ^ n % b)]

/-- The digits of a number. -/
lemma evalSum_digits {b n x : ℕ} (hx : x < b ^ n) :
    evalSum (fun i => x / b ^ i % b) n b = x := by
  rw [evalSum_digits_mod, Nat.mod_eq_of_lt hx]

/-- A number is read back digit by digit. -/
lemma evalSum_div_mod {b n i : ℕ} {d : ℕ → ℕ} (hd : ∀ j < n, d j < b) (hi : i < n) :
    evalSum d n b / b ^ i % b = d i := by
  obtain ⟨m, rfl⟩ := Nat.exists_eq_add_of_lt hi
  have hb : 0 < b ^ i := pow_pos (pos_of_gt (hd i hi)) i
  have hlow : evalSum d i b < b ^ i := evalSum_lt fun j hj => hd j (hj.trans hi)
  rw [add_assoc, evalSum_add, Nat.add_mul_div_left _ _ hb, Nat.div_eq_of_lt hlow, zero_add,
    evalSum_succ', add_zero, Nat.add_mul_mod_self_left, Nat.mod_eq_of_lt (hd i hi)]

/-- Numbers that are equal in the field and close to each other are equal. -/
lemma eq_of_natCast_eq {x y : ℕ} (hx : x < p) (hy : y < p) (h : (x : ZMod p) = y) : x = y := by
  have hval := congrArg ZMod.val h
  rwa [ZMod.val_natCast_of_lt hx, ZMod.val_natCast_of_lt hy] at hval

end PrimeDigits
