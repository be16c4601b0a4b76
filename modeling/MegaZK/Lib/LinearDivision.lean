import MegaZK.Lib.Horner

/-! # Division by a linear factor

Synthetic division of a list of coefficients, lowest first: the running values of Horner's rule
from the last coefficient down are the values of the suffixes, and those after the first one are
the quotient by `X - z`. -/

namespace LinearDivision

open Horner

variable {R : Type*} [CommSemiring R]

/-- The accumulators of `acc = acc * z + c`. -/
def runningValues (z : R) : List R → R → List R
  | [], _ => []
  | c :: cs, acc => (acc * z + c) :: runningValues z cs (acc * z + c)

/-- The value of a list of coefficients. -/
def value (z : R) (p : List R) : R := p.foldr (fun c acc => acc * z + c) 0

/-- The values of the suffixes, longest first. -/
def suffixValues (z : R) (p : List R) : List R := (runningValues z p.reverse 0).reverse

lemma runningValues_concat (z : R) (cs : List R) (c acc : R) :
    runningValues z (cs ++ [c]) acc =
      runningValues z cs acc ++ [cs.foldl (fun acc c => acc * z + c) acc * z + c] := by
  induction cs generalizing acc with
  | nil => rfl
  | cons d cs ih => rw [List.cons_append, runningValues, ih, runningValues, List.cons_append,
      List.foldl_cons]

@[simp] lemma suffixValues_nil (z : R) : suffixValues z [] = [] := rfl

@[simp] lemma suffixValues_cons (z c : R) (p : List R) :
    suffixValues z (c :: p) = value z (c :: p) :: suffixValues z p := by
  rw [suffixValues, List.reverse_cons, runningValues_concat, List.reverse_append, List.foldl_reverse]
  rfl

@[simp] lemma length_suffixValues (z : R) (p : List R) : (suffixValues z p).length = p.length := by
  induction p with
  | nil => rfl
  | cons c p ih => rw [suffixValues_cons, List.length_cons, ih, List.length_cons]

lemma value_eq (z : R) (p : List R) : value z p = evalSum (fun j => p.getD j 0) p.length z := by
  induction p with
  | nil => simp [value, evalSum]
  | cons c p ih =>
    have hcons : value z (c :: p) = value z p * z + c := rfl
    rw [hcons, ih, List.length_cons, add_comm p.length 1, evalSum_add, pow_one]
    simp only [evalSum, Finset.sum_range_one, List.getD_cons_zero, pow_zero, mul_one,
      add_comm 1, List.getD_cons_succ]
    ring

lemma suffixValues_getD (z : R) (p : List R) (k : ℕ) :
    (suffixValues z p).getD k 0 = evalSum (fun j => p.getD (k + j) 0) (p.length - k) z := by
  induction p generalizing k with
  | nil => simp [evalSum]
  | cons c p ih =>
    cases k with
    | zero => simp [value_eq]
    | succ k =>
      rw [suffixValues_cons, List.getD_cons_succ, ih, List.length_cons, Nat.add_sub_add_right]
      simp only [Nat.succ_add, List.getD_cons_succ]

/-- Coefficients beyond the list are zero. -/
lemma value_eq_of_le (z : R) {p : List R} {n : ℕ} (h : p.length ≤ n) :
    value z p = evalSum (fun j => p.getD j 0) n z := by
  obtain ⟨d, rfl⟩ := Nat.exists_eq_add_of_le h
  have hzero : evalSum (fun j => p.getD (p.length + j) 0) d z = 0 := by
    apply Finset.sum_eq_zero
    intro j _
    simp
  rw [evalSum_add, hzero, mul_zero, add_zero, value_eq]

section Quotient

variable {R : Type*} [CommRing R]

/-- Horner's rule at a point of the values of the suffixes at another. -/
lemma value_suffixValues_mul (x z : R) (p : List R) :
    value x (suffixValues z p) * (x - z) = x * value x p - z * value z p := by
  induction p with
  | nil => simp [value]
  | cons c p ih =>
    have hsuffix : value x (suffixValues z (c :: p)) =
        value x (suffixValues z p) * x + value z (c :: p) := by
      rw [suffixValues_cons]
      rfl
    have hcons : ∀ y, value y (c :: p) = value y p * y + c := fun _ => rfl
    rw [hsuffix, add_mul, mul_right_comm, ih, hcons, hcons]
    ring

/-- The suffixes after the first one are the quotient by the linear factor. -/
lemma value_tail_suffixValues_mul (x z : R) (p : List R) :
    value x (suffixValues z p).tail * (x - z) = value x p - value z p := by
  cases p with
  | nil => simp [value]
  | cons c p =>
    have hcons : ∀ y, value y (c :: p) = value y p * y + c := fun _ => rfl
    rw [suffixValues_cons, List.tail_cons, value_suffixValues_mul, hcons, hcons]
    ring

end Quotient

end LinearDivision
