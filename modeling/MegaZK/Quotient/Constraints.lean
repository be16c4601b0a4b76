import Mathlib.Algebra.Field.Defs
import Mathlib.Algebra.BigOperators.Group.List.Basic
import Mathlib.Tactic.Ring

/-! # Combining constraints

What a gate's kernel loads at one point, and how constraints are combined: a kernel adds them one by
one with running powers of the challenge, the host folds them from the last. Columns are counted by
natural numbers; there are at most `num_wires` or `num_const_sigmas` of them, which the host passes
as `u32`. -/

namespace MegaZK

variable {F : Type}

/-! ### Columns -/

/-- The columns at one point of a coset: those of `ldes_ptr`, and those of `polys_ptr`, which are
transformed in place. -/
structure PointMemory (F : Type) where
  lde : ℕ → F
  poly : ℕ → F

/-- The numbers of columns that a kernel is launched with. -/
structure GateLayout where
  numWiresLdes : ℕ
  numConstSigmas : ℕ
  numConstSigmasLdes : ℕ
  numSelectors : ℕ
  numConstants : ℕ

namespace PointMemory

variable (m : PointMemory F) (layout : GateLayout)

/-- `load_from_either` from `consts_lde_start` and `consts_start`. -/
def loadConst (numLdes index : ℕ) : F := if index < numLdes then m.lde index else m.poly index

/-- `load_from_either` from `wires_lde_start` and `wires_start`. -/
def loadWire (index : ℕ) : F :=
  if index < layout.numWiresLdes then m.lde (layout.numConstSigmasLdes + index)
  else m.poly (layout.numConstSigmas + index)

/-- The constants of a gate, after the selectors. -/
def gateConstant (index : ℕ) : F :=
  m.loadConst layout.numConstSigmasLdes (index + layout.numSelectors)

end PointMemory

/-! ### Powers of the challenge -/

/-- What `mul_pow_add` updates for one challenge. -/
structure Accumulator (F : Type) where
  acc : F
  alphaPow : F

variable [Field F]

/-- `mul_pow_add`. -/
def mulPowAdd (alpha : F) (a : Accumulator F) (cons : F) : Accumulator F where
  acc := a.acc + a.alphaPow * cons
  alphaPow := a.alphaPow * alpha

/-- `acc` after the constraints of a kernel, in its order. -/
def combine (alpha : F) (constraints : List F) : F :=
  (constraints.foldl (mulPowAdd alpha) ⟨0, 1⟩).acc

/-- `output[index + (k << lde_degree_bits)] = filter * acc[k] + quotient_acc`. -/
def gatePartial (filter alpha : F) (constraints : List F) (quotientAcc : F) : F :=
  filter * combine alpha constraints + quotientAcc

/-- `reduce_with_powers`, and `reduce_with_powers_multi` for one challenge. -/
def reduceWithPowers (alpha : F) (terms : List F) : F :=
  terms.foldr (fun term sum => sum * alpha + term) 0

lemma foldl_mulPowAdd (alpha : F) (constraints : List F) (a : Accumulator F) :
    (constraints.foldl (mulPowAdd alpha) a).acc =
      a.acc + a.alphaPow * reduceWithPowers alpha constraints := by
  induction constraints generalizing a with
  | nil => simp [reduceWithPowers]
  | cons cons constraints ih =>
    rw [List.foldl_cons, ih, mulPowAdd]
    simp only [reduceWithPowers, List.foldr_cons]
    ring

lemma foldl_mulPowAdd_alphaPow (alpha : F) (constraints : List F) (a : Accumulator F) :
    (constraints.foldl (mulPowAdd alpha) a).alphaPow = a.alphaPow * alpha ^ constraints.length := by
  induction constraints generalizing a with
  | nil => simp
  | cons cons constraints ih =>
    rw [List.foldl_cons, ih, mulPowAdd, List.length_cons]
    ring

lemma combine_eq (alpha : F) (constraints : List F) :
    combine alpha constraints = reduceWithPowers alpha constraints := by
  rw [combine, foldl_mulPowAdd, zero_add, one_mul]

lemma reduceWithPowers_append (alpha : F) (l l' : List F) :
    reduceWithPowers alpha (l ++ l') =
      reduceWithPowers alpha l + alpha ^ l.length * reduceWithPowers alpha l' := by
  induction l with
  | nil => simp [reduceWithPowers]
  | cons term l ih =>
    simp only [reduceWithPowers, List.cons_append, List.foldr_cons, List.length_cons] at ih ⊢
    rw [ih]
    ring

lemma reduceWithPowers_one (terms : List F) : reduceWithPowers 1 terms = terms.sum := by
  induction terms with
  | nil => rfl
  | cons term terms ih =>
    simp only [reduceWithPowers, List.foldr_cons, List.sum_cons] at ih ⊢
    rw [ih]
    ring

lemma reduceWithPowers_zero {alpha : F} {terms : List F} (h : ∀ term ∈ terms, term = 0) :
    reduceWithPowers alpha terms = 0 := by
  induction terms with
  | nil => rfl
  | cons term terms ih =>
    simp only [reduceWithPowers, List.foldr_cons] at ih ⊢
    rw [ih fun t ht => h t (List.mem_cons_of_mem _ ht), h term List.mem_cons_self]
    ring

/-- Constraints that vanish leave the quotient as it was. -/
lemma gatePartial_of_zero {filter alpha quotientAcc : F} {constraints : List F}
    (h : ∀ cons ∈ constraints, cons = 0) :
    gatePartial filter alpha constraints quotientAcc = quotientAcc := by
  rw [gatePartial, combine_eq, reduceWithPowers_zero h, mul_zero, zero_add]

end MegaZK
