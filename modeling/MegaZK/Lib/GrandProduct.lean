import Mathlib.Algebra.BigOperators.Fin
import Mathlib.Algebra.Polynomial.Roots
import Mathlib.RingTheory.Polynomial.Vieta

/-! # Grand products

The products of `w + β * s + γ` over two families of pairs `(w, s)`. They agree when the families
are rearrangements of each other; when they are not, few `(β, γ)` make them agree. -/

namespace GrandProduct

open Polynomial

variable {F ι : Type*} [Field F] [Fintype ι]

/-- The product at the challenges `β` and `γ`. -/
def prodAt (w s : ι → F) (β γ : F) : F := ∏ i, (w i + β * s i + γ)

/-- The product as a polynomial in `γ`, whose coefficients are polynomials in `β`. -/
noncomputable def prodPoly (w s : ι → F) : F[X][X] := ∏ i, (X + C (C (w i) + X * C (s i)))

variable {w s v t : ι → F}

lemma eval_map_prodPoly (w s : ι → F) (β γ : F) :
    ((prodPoly w s).map (evalRingHom β)).eval γ = prodAt w s β γ := by
  simp only [prodPoly, prodAt, Polynomial.map_prod, eval_prod, Polynomial.map_add, map_X, map_C,
    eval_add, eval_X, eval_C, coe_evalRingHom, eval_mul]
  exact Finset.prod_congr rfl fun i _ => by ring

lemma natDegree_prodPoly (w s : ι → F) : (prodPoly w s).natDegree = Fintype.card ι := by
  rw [prodPoly, natDegree_prod_of_monic _ _ fun i _ => monic_X_add_C _]
  simp only [natDegree_X_add_C, Finset.sum_const, Finset.card_univ, smul_eq_mul, mul_one]

/-- The lower the power of `γ`, the higher that of `β`. -/
lemma natDegree_coeff_prodPoly (w s : ι → F) (j : ℕ) :
    ((prodPoly w s).coeff j).natDegree ≤ Fintype.card ι - j := by
  rcases le_or_gt j (Fintype.card ι) with hj | hj
  · rw [prodPoly, Finset.prod_X_add_C_coeff _ _ (by simpa using hj)]
    refine natDegree_sum_le_of_forall_le _ _ fun u hu => ?_
    rw [Finset.mem_powersetCard, Finset.card_univ] at hu
    refine (natDegree_prod_le _ _).trans ((Finset.sum_le_card_nsmul _ _ 1 fun i _ => ?_).trans ?_)
    · compute_degree
    · rw [hu.2, smul_eq_mul, mul_one]
  · rw [coeff_eq_zero_of_natDegree_lt (by rwa [natDegree_prodPoly]), natDegree_zero]
    exact Nat.zero_le _

/-- The factors of the polynomial are the pairs. -/
lemma pairs_eq_of_prodPoly_eq (h : prodPoly w s = prodPoly v t) :
    Finset.univ.val.map (fun i => (w i, s i)) = Finset.univ.val.map fun i => (v i, t i) := by
  have hroots : ∀ w s : ι → F, (prodPoly w s).roots =
      (Finset.univ.val.map fun i => (w i, s i)).map fun p : F × F => -(C p.1 + X * C p.2) := by
    intro w s
    have hprod : prodPoly w s = ((Finset.univ.val.map fun i => -(C (w i) + X * C (s i))).map
        fun a => X - C a).prod := by
      rw [Multiset.map_map]
      exact Finset.prod_congr rfl fun i _ => by
        rw [Function.comp_apply, C_neg, sub_neg_eq_add]
    rw [hprod, roots_multiset_prod_X_sub_C, Multiset.map_map]
    rfl
  have hinj : Function.Injective fun p : F × F => -(C p.1 + X * C p.2) := by
    intro p q hpq
    have hpq := neg_injective hpq
    have hzero := congrArg (coeff · 0) hpq
    have hone := congrArg (coeff · 1) hpq
    simp only [coeff_add, coeff_C_zero, coeff_X_mul_zero, add_zero, coeff_C_succ, zero_add,
      coeff_X_mul] at hzero hone
    exact Prod.ext hzero hone
  have heq := congrArg roots h
  rw [hroots, hroots] at heq
  exact Multiset.map_injective hinj heq

section Finite

variable [Fintype F] [DecidableEq F]

omit [Field F] [DecidableEq F] in
lemma card_filter_pairs (P : F → F → Prop) [∀ β γ, Decidable (P β γ)] :
    (Finset.univ.filter fun c : F × F => P c.1 c.2).card =
      ∑ β, (Finset.univ.filter (P β)).card := by
  simp only [Finset.card_filter, Fintype.sum_prod_type]

/-- Products of families that are no rearrangements of each other agree for few challenges. -/
theorem card_prodAt_eq_le
    (h : Finset.univ.val.map (fun i => (w i, s i)) ≠ Finset.univ.val.map fun i => (v i, t i)) :
    (Finset.univ.filter fun c : F × F => prodAt w s c.1 c.2 = prodAt v t c.1 c.2).card ≤
      Fintype.card ι * Fintype.card F := by
  set d := prodPoly w s - prodPoly v t with hd
  have hne : d ≠ 0 := fun h0 => h (pairs_eq_of_prodPoly_eq (sub_eq_zero.mp h0))
  have hlead : d.leadingCoeff ≠ 0 := leadingCoeff_ne_zero.mpr hne
  have hdeg : d.natDegree ≤ Fintype.card ι := by
    refine (natDegree_sub_le _ _).trans ?_
    rw [natDegree_prodPoly, natDegree_prodPoly, max_self]
  have hcoeff : d.leadingCoeff.natDegree ≤ Fintype.card ι - d.natDegree := by
    rw [leadingCoeff, hd, coeff_sub]
    exact (natDegree_sub_le _ _).trans
      (max_le (natDegree_coeff_prodPoly _ _ _) (natDegree_coeff_prodPoly _ _ _))
  -- for one `β`, the polynomial in `γ` has few roots unless its top coefficient vanishes
  have hcard : ∀ β, (Finset.univ.filter fun γ => prodAt w s β γ = prodAt v t β γ).card ≤
      (if β ∈ d.leadingCoeff.roots.toFinset then Fintype.card F else 0) + d.natDegree := by
    intro β
    split_ifs with hβ
    · exact (Finset.card_filter_le _ _).trans (Nat.le_add_right _ _)
    · have hmap : d.map (evalRingHom β) ≠ 0 := by
        intro h0
        have htop := congrArg (coeff · d.natDegree) h0
        rw [Multiset.mem_toFinset, mem_roots hlead] at hβ
        exact hβ (by simpa [coeff_map] using htop)
      have hsub : (Finset.univ.filter fun γ => prodAt w s β γ = prodAt v t β γ) ⊆
          (d.map (evalRingHom β)).roots.toFinset := by
        intro γ hγ
        rw [Finset.mem_filter] at hγ
        rw [Multiset.mem_toFinset, mem_roots hmap, IsRoot.def, hd, Polynomial.map_sub, eval_sub,
          eval_map_prodPoly, eval_map_prodPoly, hγ.2, sub_self]
      calc _ ≤ _ := Finset.card_le_card hsub
        _ ≤ _ := Multiset.toFinset_card_le _
        _ ≤ _ := card_roots' _
        _ ≤ _ := natDegree_map_le
        _ = _ := (Nat.zero_add _).symm
  rw [card_filter_pairs fun β γ => prodAt w s β γ = prodAt v t β γ]
  calc _ ≤ _ := Finset.sum_le_sum fun β _ => hcard β
    _ = d.leadingCoeff.roots.toFinset.card * Fintype.card F + Fintype.card F * d.natDegree := by
      rw [Finset.sum_add_distrib, Finset.sum_ite_mem, Finset.univ_inter, Finset.sum_const,
        Finset.sum_const, Finset.card_univ, smul_eq_mul, smul_eq_mul]
    _ ≤ (Fintype.card ι - d.natDegree) * Fintype.card F + Fintype.card F * d.natDegree := by
      gcongr
      exact (Multiset.toFinset_card_le _).trans ((card_roots' _).trans hcoeff)
    _ = Fintype.card ι * Fintype.card F := by
      rw [mul_comm (Fintype.card F), ← Nat.add_mul, Nat.sub_add_cancel hdeg]

/-- A factor vanishes for few challenges. -/
lemma card_exists_eq_zero_le (v t : ι → F) :
    (Finset.univ.filter fun c : F × F => ∃ i, v i + c.1 * t i + c.2 = 0).card ≤
      Fintype.card ι * Fintype.card F := by
  rw [card_filter_pairs fun β γ => ∃ i, v i + β * t i + γ = 0]
  have hcard : ∀ β, (Finset.univ.filter fun γ => ∃ i, v i + β * t i + γ = 0).card ≤
      Fintype.card ι := by
    intro β
    have hsub : (Finset.univ.filter fun γ => ∃ i, v i + β * t i + γ = 0) ⊆
        Finset.univ.image fun i => -(v i + β * t i) := by
      intro γ hγ
      obtain ⟨i, hi⟩ := (Finset.mem_filter.mp hγ).2
      exact Finset.mem_image.mpr ⟨i, Finset.mem_univ i, neg_eq_of_add_eq_zero_right hi⟩
    exact (Finset.card_le_card hsub).trans Finset.card_image_le
  refine (Finset.sum_le_sum fun β _ => hcard β).trans ?_
  rw [Finset.sum_const, Finset.card_univ, smul_eq_mul, mul_comm]

end Finite

/-! ### A permutation of the names -/

section Permutation

variable (σ : Equiv.Perm ι)

lemma prodAt_comp (h : ∀ i, w (σ i) = w i) (β γ : F) :
    prodAt w (s ∘ σ) β γ = prodAt w s β γ := by
  rw [prodAt, prodAt, ← Equiv.prod_comp σ fun i => w i + β * s i + γ]
  exact Finset.prod_congr rfl fun i _ => by rw [h, Function.comp_apply]

omit [Field F] in
/-- With distinct names, pairs that are rearranged have the values of their images. -/
lemma comp_eq_of_pairs_eq (hs : Function.Injective s)
    (h : Finset.univ.val.map (fun i => (w i, s i)) =
      Finset.univ.val.map fun i => (w i, (s ∘ σ) i)) (i : ι) : w (σ i) = w i := by
  have hmem : (w (σ i), s (σ i)) ∈ Finset.univ.val.map fun i => (w i, s i) :=
    Multiset.mem_map_of_mem _ (Finset.mem_univ (σ i))
  rw [h] at hmem
  obtain ⟨j, -, hj⟩ := Multiset.mem_map.mp hmem
  obtain rfl := σ.injective (hs (congrArg Prod.snd hj))
  exact (congrArg Prod.fst hj).symm

end Permutation

end GrandProduct
