import MegaZK.Fri.Extension
import MegaZK.Lib.LinearDivision

/-! # The final polynomial of the host

`prove_openings` reduces the polynomials of every batch with the powers of `alpha`, divides by the
distance to the point of the batch, and shifts what it has of the final polynomial by as many powers
as it has used. -/

namespace MegaZK

open Horner LinearDivision

/-! ### Source -/

namespace PolynomialCoeffs

variable {R : Type} [CommRing R]

/-- `+=`: the shorter polynomial is padded. -/
def addAssign (p q : List R) : List R :=
  (List.range (max p.length q.length)).map fun i => p.getD i 0 + q.getD i 0

/-- `divide_by_linear`. -/
def divideByLinear (p : List R) (z : R) : List R :=
  let bs := runningValues z p.reverse 0
  bs.dropLast.reverse

/-- `mul_extension`. -/
def mulExtension {F : Type} [CommRing F] (p : List F) (s : ExtensionField F) :
    List (ExtensionField F) :=
  p.map fun c => ⟨c * s.re, c * s.im⟩

end PolynomialCoeffs

open PolynomialCoeffs

/-- `ReducingFactor`. -/
structure ReducingFactor (R : Type) where
  base : R
  count : ℕ

/-- A batch of an opening: its point and the coefficients of its polynomials. -/
structure FriBatch (F : Type) [CommRing F] where
  point : ExtensionField F
  polynomials : List (List F)

section Source

variable {F : Type} [CommRing F]

/-- `reduce_polys_base`: the powers of the base, zipped with the polynomials, and the sum. -/
def ReducingFactor.reducePolysBase (alpha : ReducingFactor (ExtensionField F))
    (polys : List (List F)) : List (ExtensionField F) × ReducingFactor (ExtensionField F) :=
  ((polys.zipIdx.map fun p => mulExtension p.1 (alpha.base ^ p.2)).foldl addAssign [],
    { alpha with count := alpha.count + polys.length })

/-- `shift_poly`. -/
def ReducingFactor.shiftPoly (alpha : ReducingFactor (ExtensionField F))
    (p : List (ExtensionField F)) : List (ExtensionField F) × ReducingFactor (ExtensionField F) :=
  (p.map fun c => c * alpha.base ^ alpha.count, { alpha with count := 0 })

/-- The loop of `prove_openings` over the batches. -/
def proveBatches : List (FriBatch F) → ReducingFactor (ExtensionField F) →
    List (ExtensionField F) → List (ExtensionField F)
  | [], _, finalPoly => finalPoly
  | batch :: batches, alpha, finalPoly =>
    let (compositionPoly, alpha) := alpha.reducePolysBase batch.polynomials
    let quotient := divideByLinear compositionPoly batch.point ++ [0]
    let (finalPoly, alpha) := alpha.shiftPoly finalPoly
    proveBatches batches alpha (addAssign finalPoly quotient)

/-- The final polynomial of `prove_openings`. -/
def provedFinalPoly (alpha : ExtensionField F) (batches : List (FriBatch F)) :
    List (ExtensionField F) :=
  proveBatches batches ⟨alpha, 0⟩ []

end Source

/-! ### Coefficients -/

namespace PolynomialCoeffs

variable {R : Type} [CommRing R]

@[simp] lemma length_addAssign (p q : List R) :
    (addAssign p q).length = max p.length q.length := by
  simp [addAssign]

@[simp] lemma addAssign_getD (p q : List R) (k : ℕ) :
    (addAssign p q).getD k 0 = p.getD k 0 + q.getD k 0 := by
  by_cases hk : k < max p.length q.length
  · simp [addAssign, List.getD_eq_getElem?_getD, hk]
  · obtain ⟨hp, hq⟩ := max_le_iff.mp (not_lt.mp hk)
    have hlen : (addAssign p q).length ≤ k := by
      rw [length_addAssign]
      exact not_lt.mp hk
    simp [List.getD_eq_getElem?_getD, List.getElem?_eq_none hlen, List.getElem?_eq_none hp,
      List.getElem?_eq_none hq]

lemma divideByLinear_eq (p : List R) (z : R) : divideByLinear p z = (suffixValues z p).tail := by
  rw [divideByLinear, suffixValues, List.tail_reverse]

@[simp] lemma length_divideByLinear (p : List R) (z : R) :
    (divideByLinear p z).length = p.length - 1 := by
  rw [divideByLinear_eq, List.length_tail, length_suffixValues]

/-- The quotient has the value of the coefficients after each one. -/
lemma divideByLinear_getD (p : List R) (z : R) (k : ℕ) :
    (divideByLinear p z).getD k 0 =
      evalSum (fun j => p.getD (k + 1 + j) 0) (p.length - (k + 1)) z := by
  rw [divideByLinear_eq, ← suffixValues_getD, List.getD_eq_getElem?_getD, List.getElem?_tail,
    ← List.getD_eq_getElem?_getD]

/-- The padding to a power of two does not count. -/
lemma padded_getD (p : List R) (k : ℕ) : (p ++ [0]).getD k 0 = p.getD k 0 := by
  rw [List.getD_eq_getElem?_getD, List.getD_eq_getElem?_getD, List.getElem?_append]
  by_cases hk : k < p.length
  · rw [if_pos hk]
  · rw [if_neg hk, List.getElem?_eq_none (not_lt.mp hk)]
    cases k - p.length with
    | zero => rfl
    | succ n => rfl

variable {F : Type} [CommRing F]

lemma mulExtension_getD (p : List F) (s : ExtensionField F) (k : ℕ) :
    (mulExtension p s).getD k 0 = .C (p.getD k 0) * s := by
  have hmul : ∀ c : F, (⟨c * s.re, c * s.im⟩ : ExtensionField F) = .C c * s := by
    intro c
    ext <;> simp
  simp only [mulExtension, hmul, List.getD_eq_getElem?_getD, List.getElem?_map]
  cases p[k]? with
  | none => simp
  | some c => rfl

end PolynomialCoeffs

section Batches

variable {F : Type} [CommRing F]

/-- The reduction of `m` polynomials of `n` coefficients. -/
lemma reducePolysBase_spec (alpha : ReducingFactor (ExtensionField F)) (col : ℕ → List F) {n : ℕ}
    (hlen : ∀ i, (col i).length = n) (m : ℕ) :
    let reduced := alpha.reducePolysBase ((List.range m).map col)
    reduced.1.length = (if m = 0 then 0 else n) ∧ reduced.2 = ⟨alpha.base, alpha.count + m⟩ ∧
      ∀ k, reduced.1.getD k 0 = evalSum (fun i => .C ((col i).getD k 0)) m alpha.base := by
  have hcount : ((List.range m).map col).length = m := by simp
  refine ⟨?_, by simp only [ReducingFactor.reducePolysBase, hcount], ?_⟩
  · induction m with
    | zero => rfl
    | succ m ih =>
      have hmul : (mulExtension (col m) (alpha.base ^ m)).length = n := by
        rw [mulExtension, List.length_map, hlen]
      have ih := ih (by simp)
      simp only [ReducingFactor.reducePolysBase, List.range_succ, List.map_append, List.map_cons,
        List.map_nil, List.zipIdx_append, List.foldl_append, List.zipIdx_cons, List.zipIdx_nil,
        List.foldl_cons, List.foldl_nil, length_addAssign, List.length_map, List.length_range,
        Nat.zero_add, hmul] at ih ⊢
      rw [ih, if_neg (Nat.succ_ne_zero m)]
      split_ifs
      · exact Nat.zero_max n
      · exact max_self n
  · intro k
    clear hcount
    induction m with
    | zero => rfl
    | succ m ih =>
      simp only [ReducingFactor.reducePolysBase, List.range_succ, List.map_append, List.map_cons,
        List.map_nil, List.zipIdx_append, List.foldl_append, List.zipIdx_cons, List.zipIdx_nil,
        List.foldl_cons, List.foldl_nil, addAssign_getD, List.length_map, List.length_range,
        Nat.zero_add, mulExtension_getD] at ih ⊢
      rw [ih, evalSum, evalSum, Finset.sum_range_succ]

end Batches

end MegaZK
