import Mathlib.LinearAlgebra.Lagrange
import MegaZK.Field.BatchInverse
import MegaZK.Lib.Fold
import MegaZK.Lib.Horner

/-! # Interpolation

`barycentric_weights` and `interpolate`: the value of the polynomial through given points, which is
read off at one of them. -/

namespace MegaZK

open Horner Polynomial

variable {F : Type} [Field F] [DecidableEq F]

/-! ### Source -/

/-- `barycentric_weights`. -/
def barycentricWeights (points : List (F × F)) : Option (List F) :=
  let n := points.length
  let x := fun i => (points.getD i (0, 0)).1
  batchMultiplicativeInverse <| (List.range n).map fun i =>
    (((List.range n).filter (· ≠ i)).map fun j => x i - x j).prod

/-- `interpolate`. -/
def interpolate (points : List (F × F)) (x : F) (weights : List F) : Option F :=
  match points.find? (·.1 = x) with
  | some p => some p.2
  | none => do
    let lx := (points.map fun p => x - p.1).prod
    let terms ← (List.range points.length).mapM fun i => do
      let p ← points[i]?
      let w ← weights[i]?
      let d ← tryInverse (x - p.1)
      return w * d * p.2
    return lx * terms.sum

/-! ### Values of a polynomial -/

/-- The polynomial with coefficients `f 0, …, f (n - 1)`. -/
noncomputable def coeffsPoly (f : ℕ → F) (n : ℕ) : F[X] := ∑ k ∈ Finset.range n, C (f k) * X ^ k

omit [DecidableEq F] in
lemma eval_coeffsPoly (f : ℕ → F) (n : ℕ) (x : F) : (coeffsPoly f n).eval x = evalSum f n x := by
  simp [coeffsPoly, evalSum, eval_finsetSum]

omit [DecidableEq F] in
lemma degree_coeffsPoly_lt (f : ℕ → F) (n : ℕ) : (coeffsPoly f n).degree < n := by
  rw [degree_lt_iff_coeff_zero]
  intro m hm
  rw [coeffsPoly, finsetSum_coeff]
  apply Finset.sum_eq_zero
  intro k hk
  have hne : m ≠ k := by
    have := Finset.mem_range.mp hk
    omega
  simp [coeff_X_pow, hne]

/-- The points of the values `y` at `x`. -/
def pointsOf (x y : ℕ → F) (n : ℕ) : List (F × F) := (List.range n).map fun i => (x i, y i)

section Points

variable {x : ℕ → F} {n : ℕ} (hx : Set.InjOn x (Finset.range n))

include hx

lemma barycentricWeights_pointsOf (y : ℕ → F) : barycentricWeights (pointsOf x y n) =
    some ((List.range n).map (Lagrange.nodalWeight (Finset.range n) x)) := by
  have hprod : ∀ i < n, (((List.range n).filter (· ≠ i)).map fun j =>
      ((pointsOf x y n).getD i (0, 0)).1 - ((pointsOf x y n).getD j (0, 0)).1).prod =
        ∏ j ∈ (Finset.range n).erase i, (x i - x j) := by
    intro i hi
    have hfilter : ((List.range n).filter (· ≠ i)).toFinset = (Finset.range n).erase i := by
      ext j
      simp [and_comm]
    rw [← hfilter, List.prod_toFinset _ (List.nodup_range.filter _)]
    congr 1
    apply List.map_congr_left
    intro j hj
    have hj : j < n := List.mem_range.mp (List.mem_of_mem_filter hj)
    simp [pointsOf, hi, hj]
  have hne : ∀ i < n, ∏ j ∈ (Finset.range n).erase i, (x i - x j) ≠ 0 := by
    intro i hi
    rw [Finset.prod_ne_zero_iff]
    intro j hj
    obtain ⟨hji, hj⟩ := Finset.mem_erase.mp hj
    refine sub_ne_zero.mpr fun heq => hji ?_
    exact (hx (by simpa using hi) hj heq).symm
  have hlen : (pointsOf x y n).length = n := by simp [pointsOf]
  have hlist : ((List.range n).map fun i => (((List.range n).filter (· ≠ i)).map fun j =>
      ((pointsOf x y n).getD i (0, 0)).1 - ((pointsOf x y n).getD j (0, 0)).1).prod) =
        (List.range n).map fun i => ∏ j ∈ (Finset.range n).erase i, (x i - x j) :=
    List.map_congr_left fun i hi => hprod i (List.mem_range.mp hi)
  rw [barycentricWeights]
  simp only [hlen]
  rw [hlist, batchMultiplicativeInverse, if_neg, List.map_map]
  · congr 1
    apply List.map_congr_left
    intro i _
    simp only [Function.comp_apply, Lagrange.nodalWeight, Finset.prod_inv_distrib]
  · intro hzero
    obtain ⟨i, hi, heq⟩ := List.mem_map.mp hzero
    exact hne i (List.mem_range.mp hi) heq

/-- The values of a polynomial of fewer coefficients than points determine its values. -/
lemma interpolate_evalSum (f : ℕ → F) (z : F) :
    interpolate (pointsOf x (fun i => evalSum f n (x i)) n) z
      ((List.range n).map (Lagrange.nodalWeight (Finset.range n) x)) = some (evalSum f n z) := by
  rw [interpolate]
  cases hfind : (pointsOf x (fun i => evalSum f n (x i)) n).find? (·.1 = z) with
  | some p =>
    obtain ⟨i, -, rfl⟩ := List.mem_map.mp (List.mem_of_find?_eq_some hfind)
    have heq : x i = z := by simpa using List.find?_some hfind
    subst heq
    rfl
  | none =>
    have hne : ∀ i < n, z ≠ x i := by
      intro i hi heq
      have hmem : (x i, evalSum f n (x i)) ∈ pointsOf x (fun i => evalSum f n (x i)) n :=
        List.mem_map.mpr ⟨i, List.mem_range.mpr hi, rfl⟩
      have := List.find?_eq_none.mp hfind _ hmem
      simp [heq] at this
    have hterms : (List.range (pointsOf x (fun i => evalSum f n (x i)) n).length).mapM (fun i => do
        let p ← (pointsOf x (fun i => evalSum f n (x i)) n)[i]?
        let w ← ((List.range n).map (Lagrange.nodalWeight (Finset.range n) x))[i]?
        let d ← tryInverse (z - p.1)
        return w * d * p.2) = some ((List.range n).map fun i =>
          Lagrange.nodalWeight (Finset.range n) x i * (z - x i)⁻¹ * evalSum f n (x i)) := by
      have hlen : (pointsOf x (fun i => evalSum f n (x i)) n).length = n := by simp [pointsOf]
      rw [hlen]
      apply Fold.mapM_eq_some_map
      intro i hi
      have hi := List.mem_range.mp hi
      simp [pointsOf, hi, tryInverse_of_ne_zero (sub_ne_zero.mpr (hne i hi))]
    have hpoly := Lagrange.eq_interpolate_of_eval_eq (s := Finset.range n)
      (fun i => evalSum f n (x i)) hx (by simpa using degree_coeffsPoly_lt f n)
      fun i _ => eval_coeffsPoly f n (x i)
    have hvalue := Lagrange.eval_interpolate_not_at_node (s := Finset.range n) (v := x)
      (fun i => evalSum f n (x i)) fun i hi => hne i (Finset.mem_range.mp hi)
    rw [← hpoly, eval_coeffsPoly, Lagrange.eval_nodal] at hvalue
    have hprod : ((pointsOf x (fun i => evalSum f n (x i)) n).map fun p => z - p.1).prod =
        ∏ i ∈ Finset.range n, (z - x i) := by
      rw [pointsOf, List.map_map, ← List.toFinset_range, List.prod_toFinset _ List.nodup_range]
      rfl
    dsimp only
    rw [hterms, hprod, hvalue, ← List.toFinset_range, List.sum_toFinset _ List.nodup_range]
    rfl

end Points

/-! ### Arbitrary points -/

omit [Field F] [DecidableEq F] in
/-- Distinct points, as their enumeration. -/
lemma nodup_map_iff_injOn [Zero F] (points : List (F × F)) :
    (points.map (·.1)).Nodup ↔
      Set.InjOn (fun i => (points.getD i (0, 0)).1) (Finset.range points.length) := by
  rw [List.nodup_iff_injective_getElem]
  constructor
  · intro hinj i hi j hj heq
    have hi : i < points.length := by simpa using hi
    have hj : j < points.length := by simpa using hj
    have hfin := @hinj ⟨i, by simpa using hi⟩ ⟨j, by simpa using hj⟩ (by simpa [hi, hj] using heq)
    exact congrArg Fin.val hfin
  · rintro hinj ⟨i, hi⟩ ⟨j, hj⟩ heq
    rw [List.length_map] at hi hj
    exact Fin.ext (hinj (by simpa using hi) (by simpa using hj) (by simpa [hi, hj] using heq))

omit [Field F] [DecidableEq F] in
lemma forall_mem_iff_getD [Zero F] {P : F × F → Prop} {points : List (F × F)} :
    (∀ a ∈ points, P a) ↔ ∀ i < points.length, P (points.getD i (0, 0)) := by
  rw [List.forall_mem_iff_forall_getElem]
  refine forall₂_congr fun i hi => ?_
  rw [List.getD_eq_getElem _ _ hi]

omit [DecidableEq F] in
lemma pointsOf_getD (points : List (F × F)) :
    pointsOf (fun i => (points.getD i (0, 0)).1) (fun i => (points.getD i (0, 0)).2)
      points.length = points := by
  apply List.ext_getElem (by simp [pointsOf])
  intro i hi _
  have hi : i < points.length := by simpa [pointsOf] using hi
  simp [pointsOf, hi]

omit [DecidableEq F] in
lemma evalSum_coeff {p : F[X]} {n : ℕ} (hp : p.degree < n) (z : F) :
    evalSum p.coeff n z = p.eval z := by
  by_cases hzero : p = 0
  · simp [hzero, evalSum]
  · exact (eval_eq_sum_range' ((natDegree_lt_iff_degree_lt hzero).mpr hp) z).symm

/-- Two points at one place have no weights. -/
lemma barycentricWeights_eq_none {points : List (F × F)} (h : ¬ (points.map (·.1)).Nodup) :
    barycentricWeights points = none := by
  rw [nodup_map_iff_injOn, Set.InjOn] at h
  push Not at h
  obtain ⟨i, hi, j, hj, heq, hne⟩ := h
  rw [barycentricWeights, batchMultiplicativeInverse]
  apply if_pos
  refine List.mem_map.mpr ⟨i, by simpa using hi, List.prod_eq_zero ?_⟩
  refine List.mem_map.mpr ⟨j, ?_, sub_eq_zero.mpr heq⟩
  rw [List.mem_filter]
  exact ⟨by simpa using hj, by simpa using hne.symm⟩

/-- `barycentric_weights` panics on points at one place and no others. With its weights
`interpolate` yields the values of the only polynomial of that degree through the points. -/
theorem interpolate_barycentricWeights (points : List (F × F)) :
    if (points.map (·.1)).Nodup then
      ∃ weights, barycentricWeights points = some weights ∧ ∃ p : F[X],
        (∀ q : F[X], q.degree < points.length ∧ (∀ a ∈ points, q.eval a.1 = a.2) ↔ q = p) ∧
          ∀ z, interpolate points z weights = some (p.eval z)
    else barycentricWeights points = none := by
  split_ifs with hnodup
  · have hx := (nodup_map_iff_injOn points).mp hnodup
    set n := points.length with hn
    set x : ℕ → F := fun i => (points.getD i (0, 0)).1 with hxdef
    set y : ℕ → F := fun i => (points.getD i (0, 0)).2 with hydef
    set p := Lagrange.interpolate (Finset.range n) x y with hp
    have hdegree : p.degree < n := by
      have hlt := Lagrange.degree_interpolate_lt y hx
      rwa [Finset.card_range] at hlt
    have hvalue : ∀ i < n, p.eval (x i) = y i := fun i hi =>
      Lagrange.eval_interpolate_at_node y hx (Finset.mem_range.mpr hi)
    have hpoints : pointsOf x (fun i => evalSum p.coeff n (x i)) n = points := by
      conv_rhs => rw [← pointsOf_getD points]
      refine List.map_congr_left fun i hi => congrArg (Prod.mk _) ?_
      exact (evalSum_coeff hdegree _).trans (hvalue i (List.mem_range.mp hi))
    have hweights := barycentricWeights_pointsOf hx fun i => evalSum p.coeff n (x i)
    rw [hpoints] at hweights
    refine ⟨_, hweights, p, fun q => ?_, fun z => ?_⟩
    · rw [hp, ← Lagrange.eq_interpolate_iff y hx, Finset.card_range]
      refine and_congr_right fun _ => ?_
      simp only [forall_mem_iff_getD, Finset.mem_range]
      rfl
    · have hinterpolate := interpolate_evalSum hx p.coeff z
      rwa [hpoints, evalSum_coeff hdegree] at hinterpolate
  · exact barycentricWeights_eq_none hnodup

end MegaZK
