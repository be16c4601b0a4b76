import MegaZK.Fri.Prover

/-! # The combination of the openings

The final polynomial of the prover has, at every point of the domain, the value that the verifier
combines from the opened leaves and the openings. -/

namespace MegaZK

open Horner LinearDivision PolynomialCoeffs
open scoped QuadraticField

/-! ### Values of coefficient lists -/

section Values

variable {R : Type} [CommRing R]

lemma value_cons (z c : R) (p : List R) : value z (c :: p) = value z p * z + c := rfl

lemma value_map_mul (z s : R) (p : List R) : value z (p.map fun c => c * s) = value z p * s := by
  induction p with
  | nil => simp [value]
  | cons c p ih =>
    rw [List.map_cons, value_cons, value_cons, ih]
    ring

lemma value_addAssign (z : R) (p q : List R) :
    value z (addAssign p q) = value z p + value z q := by
  rw [value_eq_of_le z (length_addAssign p q).le, value_eq_of_le z (le_max_left _ q.length),
    value_eq_of_le z (le_max_right p.length _), evalSum, evalSum, evalSum, ← Finset.sum_add_distrib]
  apply Finset.sum_congr rfl
  intro k _
  rw [addAssign_getD, add_mul]

lemma value_padded (z : R) (p : List R) : value z (p ++ [0]) = value z p := by
  rw [value_eq_of_le z (Nat.le_of_eq (List.length_append ..)),
    value_eq_of_le z (Nat.le_add_right p.length 1), List.length_singleton]
  apply evalSum_congr
  intro k _
  exact padded_getD p k

/-- The quotient by a linear factor, at another point. -/
lemma value_divideByLinear_mul (x z : R) (p : List R) :
    value x (divideByLinear p z) * (x - z) = value x p - value z p := by
  rw [divideByLinear_eq, value_tail_suffixValues_mul]

end Values

section Extension

variable {F : Type} [CommRing F]

lemma evalExtension_eq (z : ExtensionField F) (p : List F) :
    evalExtension z p = value z (p.map .C) := by
  rw [evalExtension, List.foldl_reverse, value, List.foldr_map]

lemma value_mulExtension (z s : ExtensionField F) (p : List F) :
    value z (mulExtension p s) = evalExtension z p * s := by
  have hmul : ∀ c : F, (⟨c * s.re, c * s.im⟩ : ExtensionField F) = .C c * s := by
    intro c
    ext <;> simp
  rw [evalExtension_eq, ← value_map_mul, List.map_map, mulExtension]
  congr 1
  exact List.map_congr_left fun c _ => hmul c

/-- At a point of the base field. -/
lemma evalExtension_C (x : F) (p : List F) :
    evalExtension (.C x) p = .C (evalSum (p.getD · 0) p.length x) := by
  rw [← value_eq, evalExtension_eq]
  induction p with
  | nil => simp [value]
  | cons c p ih =>
    rw [List.map_cons, value_cons, value_cons, ih, QuadraticAlgebra.C_add, QuadraticAlgebra.C_mul]

/-- The sum of the polynomials with the powers of the challenge. -/
lemma value_reducePolysBase (z : ExtensionField F) (alpha : ReducingFactor (ExtensionField F))
    (polys : List (List F)) :
    value z (alpha.reducePolysBase polys).1 = value alpha.base (polys.map (evalExtension z)) := by
  have hloop : ∀ (k : ℕ) (acc : List (ExtensionField F)),
      value z (((polys.zipIdx k).map fun p => mulExtension p.1 (alpha.base ^ p.2)).foldl
          addAssign acc) =
        value z acc + value alpha.base (polys.map (evalExtension z)) * alpha.base ^ k := by
    induction polys with
    | nil => simp [value]
    | cons p polys ih =>
      intro k acc
      rw [List.zipIdx_cons, List.map_cons, List.foldl_cons, ih, value_addAssign,
        value_mulExtension, List.map_cons, value_cons]
      ring
  have h := hloop 0 []
  rw [pow_zero, mul_one] at h
  rw [ReducingFactor.reducePolysBase, h]
  simp [value]

end Extension

/-! ### Reductions -/

lemma ReducingFactor.reduce_eq {R : Type} [CommRing R] (alpha : ReducingFactor R) (xs : List R) :
    alpha.reduce xs = (value alpha.base xs, ⟨alpha.base, alpha.count + xs.length⟩) := by
  induction xs with
  | nil => rfl
  | cons x xs ih =>
    rw [ReducingFactor.reduce] at ih ⊢
    rw [List.foldr_cons, ih, value_cons, List.length_cons]
    ext
    · rw [mul_comm]
    · rfl

lemma reducedOpenings_eq (openings : List (List QuadraticExtension)) (alpha : QuadraticExtension) :
    reducedOpenings openings alpha = openings.map (value alpha) := by
  apply List.map_congr_left
  intro values _
  rw [ReducingFactor.reduce_eq]

/-! ### The final polynomial -/

section Length

variable {R : Type} [CommRing R]

lemma length_foldl_addAssign {n : ℕ} {polys : List (List R)} (hlen : ∀ p ∈ polys, p.length = n)
    {acc : List R} (hacc : acc.length = n) : (polys.foldl addAssign acc).length = n := by
  induction polys generalizing acc with
  | nil => exact hacc
  | cons p polys ih =>
    obtain ⟨hp, hlen⟩ := List.forall_mem_cons.mp hlen
    rw [List.foldl_cons]
    refine ih hlen ?_
    rw [length_addAssign, hacc, hp, max_self]

variable {F : Type} [CommRing F] {n : ℕ}

lemma length_reducePolysBase (alpha : ReducingFactor (ExtensionField F)) {polys : List (List F)}
    (hlen : ∀ p ∈ polys, p.length = n) :
    (alpha.reducePolysBase polys).1.length = if polys = [] then 0 else n := by
  cases polys with
  | nil => rfl
  | cons p polys =>
    obtain ⟨hp, hlen⟩ := List.forall_mem_cons.mp hlen
    rw [if_neg (List.cons_ne_nil p polys), ReducingFactor.reducePolysBase, List.zipIdx_cons,
      List.map_cons, List.foldl_cons]
    refine length_foldl_addAssign ?_ ?_
    · intro q hq
      obtain ⟨x, hx, rfl⟩ := List.mem_map.mp hq
      rw [mulExtension, List.length_map]
      exact hlen x.1 (List.fst_mem_of_mem_zipIdx hx)
    · rw [length_addAssign, mulExtension, List.length_map, hp, List.length_nil, Nat.zero_max]

/-- The final polynomial has the size of the polynomials as soon as one of them is opened. -/
lemma length_proveBatches (hn : 0 < n) {batches : List (FriBatch F)}
    (hlen : ∀ b ∈ batches, ∀ p ∈ b.polynomials, p.length = n)
    (alpha : ReducingFactor (ExtensionField F)) {finalPoly : List (ExtensionField F)}
    (hle : finalPoly.length ≤ n)
    (hfull : finalPoly.length = n ∨ ∃ b ∈ batches, b.polynomials ≠ []) :
    (proveBatches batches alpha finalPoly).length = n := by
  induction batches generalizing alpha finalPoly with
  | nil =>
    rcases hfull with hfull | ⟨b, hb, -⟩
    · exact hfull
    · cases hb
  | cons b batches ih =>
    obtain ⟨hb, hlen⟩ := List.forall_mem_cons.mp hlen
    have hreduced := length_reducePolysBase alpha hb
    have hnext : (addAssign (finalPoly.map fun c => c * alpha.base ^ (alpha.count +
        b.polynomials.length)) (divideByLinear (alpha.reducePolysBase b.polynomials).1 b.point ++
          [0])).length = max finalPoly.length (if b.polynomials = [] then 1 else n) := by
      rw [length_addAssign, List.length_map, List.length_append, length_divideByLinear, hreduced,
        List.length_singleton]
      congr 1
      split_ifs
      · rfl
      · omega
    rw [proveBatches]
    refine ih hlen _ ?_ ?_
    · refine hnext.trans_le (max_le hle ?_)
      split_ifs
      · exact hn
      · exact le_rfl
    · by_cases hempty : b.polynomials = []
      · rw [if_pos hempty] at hnext
        rcases hfull with hfull | ⟨b', hb', hne⟩
        · exact .inl (hnext.trans (by omega))
        · rcases List.mem_cons.mp hb' with rfl | hb'
          · exact absurd hempty hne
          · exact .inr ⟨b', hb', hne⟩
      · rw [if_neg hempty] at hnext
        exact .inl (hnext.trans (max_eq_right hle))

end Length

/-! ### What the verifier combines -/

/-- The leaf of an oracle holds the values of its polynomials at the point of the query. -/
def CommonCircuitData.OpensAt (c : CommonCircuitData) (oracles : List PolynomialBatch)
    (proof : List (List GoldilocksField × List (List GoldilocksField))) (x : GoldilocksField) :
    Prop :=
  ∀ p poly, CommonCircuitData.polynomialOf oracles p = some poly →
    c.unsaltedEval proof p = some (evalSum (poly.getD · 0) poly.length x)

section Combination

variable {c : CommonCircuitData} {oracles : List PolynomialBatch}
  {proof : List (List GoldilocksField × List (List GoldilocksField))} {x : GoldilocksField}

open CommonCircuitData

/-- One step of the prover, as the verifier sees it. -/
lemma value_proveBatch (fb : FriBatch GoldilocksField) (alpha : ReducingFactor QuadraticExtension)
    (finalPoly : List QuadraticExtension) (hpoint : .C x ≠ fb.point) :
    value (.C x) (addAssign (finalPoly.map fun c => c * alpha.base ^ (alpha.count +
        fb.polynomials.length)) (divideByLinear (alpha.reducePolysBase fb.polynomials).1 fb.point ++
          [0])) =
      alpha.base ^ (alpha.count + fb.polynomials.length) * value (.C x) finalPoly +
        (value alpha.base (fb.polynomials.map (evalExtension (.C x))) -
          value alpha.base (fb.polynomials.map (evalExtension fb.point))) *
            ((.C x : QuadraticExtension) - fb.point)⁻¹ := by
  have hne : (.C x : QuadraticExtension) - fb.point ≠ 0 := sub_ne_zero.mpr hpoint
  have hquotient := value_divideByLinear_mul (.C x) fb.point
    (alpha.reducePolysBase fb.polynomials).1
  rw [value_reducePolysBase, value_reducePolysBase] at hquotient
  rw [value_addAssign, value_map_mul, value_padded, ← hquotient, mul_inv_cancel_right₀ hne, mul_comm]

/-- The verifier combines the value of the final polynomial. -/
lemma combineBatches_eq (hopens : c.OpensAt oracles proof x) {batches : List FriBatchInfo}
    {fbs : List (FriBatch GoldilocksField)} {openings : List (List QuadraticExtension)}
    (hfbs : batches.mapM (batchOf oracles) = some fbs)
    (hopenings : batches.mapM (openBatch oracles) = some openings)
    (hpoint : ∀ b ∈ batches, .C x ≠ b.point) (alpha : ReducingFactor QuadraticExtension)
    (finalPoly : List QuadraticExtension) :
    c.combineBatches proof (.C x) (batches.zip (reducedOpenings openings alpha.base)) alpha
        (value (.C x) finalPoly) =
      some (value (.C x) (proveBatches fbs alpha finalPoly)) := by
  rw [reducedOpenings_eq]
  induction batches generalizing fbs openings alpha finalPoly with
  | nil =>
    cases hfbs
    cases hopenings
    rfl
  | cons b batches ih =>
    obtain ⟨hb, hpoint⟩ := List.forall_mem_cons.mp hpoint
    rw [List.mapM_cons] at hfbs hopenings
    obtain ⟨fb, hfb, hfbs⟩ := Option.bind_eq_some_iff.mp hfbs
    obtain ⟨fbs', hfbs', hfbs⟩ := Option.bind_eq_some_iff.mp hfbs
    obtain ⟨values, hvalues, hopenings⟩ := Option.bind_eq_some_iff.mp hopenings
    obtain ⟨openings', hopenings', hopenings⟩ := Option.bind_eq_some_iff.mp hopenings
    cases hfbs
    cases hopenings
    obtain ⟨polys, hpolys, hfb⟩ := Option.bind_eq_some_iff.mp hfb
    cases hfb
    obtain ⟨polys', hpolys', hvalues⟩ := Option.bind_eq_some_iff.mp hvalues
    obtain rfl : polys = polys' := Option.some.inj (hpolys.symm.trans hpolys')
    cases hvalues
    have hevals : b.polynomials.mapM (c.unsaltedEval proof) =
        some (polys.map fun p => evalSum (p.getD · 0) p.length x) :=
      Fold.mapM_map_of_mapM hopens hpolys
    have hlift : (polys.map fun p => evalSum (p.getD · 0) p.length x).map
        (.C : GoldilocksField → QuadraticExtension) = polys.map (evalExtension (.C x)) := by
      rw [List.map_map]
      exact List.map_congr_left fun p _ => (evalExtension_C x p).symm
    have hne : (.C x : QuadraticExtension) - b.point ≠ 0 := sub_ne_zero.mpr hb
    rw [List.map_cons, List.zip_cons_cons, combineBatches]
    simp only [hevals, hlift, ReducingFactor.reduce_eq, ReducingFactor.shift, List.length_map,
      tryInverse_of_ne_zero hne, Option.bind_eq_bind, Option.bind_some]
    rw [← value_proveBatch ⟨b.point, polys⟩ alpha finalPoly hb, proveBatches]
    exact ih hfbs' hopenings' hpoint ⟨alpha.base, 0⟩ _

end Combination

end MegaZK
