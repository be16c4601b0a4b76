import Mathlib
import MegaZK.Poseidon.Tables

/-! # The Poseidon permutation

`Poseidon::poseidon` of the host, with the fast partial rounds, and the functions that the kernels
build their rounds from. The device's round constants are generated when it is built, so both
sides take them as an argument. -/

namespace MegaZK.Poseidon

open Finset

/-- `HALF_N_FULL_ROUNDS`. -/
def halfNFullRounds : ℕ := 4

/-- `N_PARTIAL_ROUNDS`. -/
def nPartialRounds : ℕ := 22

/-- The sponge's state, of `SPONGE_WIDTH` elements. -/
abbrev State (F : Type) := Fin 12 → F

/-- A state has a first lane. -/
instance neZero_width : NeZero 12 := ⟨by decide⟩

variable {F : Type} [Field F] (rc : ℕ → Fin 12 → F)

/-! ### Host -/

/-- `constant_layer`. -/
def constantLayer (state : State F) (roundCtr : ℕ) : State F := fun i => state i + rc roundCtr i

/-- `sbox_monomial`. -/
def sboxMonomial (x : F) : F :=
  let x2 := x * x
  let x4 := x2 * x2
  let x3 := x * x2
  x3 * x4

/-- `sbox_layer`. -/
def sboxLayer (state : State F) : State F := fun i => sboxMonomial (state i)

/-- `mds_row_shf`; the sum of the indices is taken modulo the width. -/
def mdsRowShf (r : Fin 12) (v : State F) : F :=
  (∑ i : Fin 12, v (i + r) * (mdsMatrixCirc.getD i 0 : ℕ)) + v r * (mdsMatrixDiag.getD r 0 : ℕ)

/-- `mds_layer`. -/
def mdsLayer (state : State F) : State F := fun r => mdsRowShf r state

/-- `partial_first_constant_layer`. -/
def partialFirstConstantLayer (state : State F) : State F :=
  fun i => state i + (fastPartialFirstRoundConstant.getD i 0 : ℕ)

/-- `mds_partial_layer_init`. -/
def mdsPartialLayerInit (state : State F) : State F :=
  Fin.cons (state 0) fun c =>
    ∑ r : Fin 11, state r.succ * (entry fastPartialRoundInitialMatrix r c : ℕ)

/-- `mds_partial_layer_fast`. -/
def mdsPartialLayerFast (state : State F) (r : ℕ) : State F :=
  Fin.cons
    ((∑ i : Fin 11, state i.succ * (entry fastPartialRoundWHats r i : ℕ)) +
      state 0 * ((mdsMatrixCirc.getD 0 0 + mdsMatrixDiag.getD 0 0 : ℕ) : F))
    fun i => state i.succ + state 0 * (entry fastPartialRoundVs r i : ℕ)

/-- The loop of `full_rounds`. -/
def fullRounds : ℕ → State F → ℕ → State F
  | 0, state, _ => state
  | n + 1, state, roundCtr =>
    fullRounds n (mdsLayer (sboxLayer (constantLayer rc state roundCtr))) (roundCtr + 1)

/-- The s-box and the constant of a partial round. -/
def partialSbox (state : State F) (i : ℕ) : State F :=
  Function.update state 0 (sboxMonomial (state 0) + (fastPartialRoundConstants.getD i 0 : ℕ))

/-- The loop of `partial_rounds`, from round `i` on. -/
def partialRoundsFrom : ℕ → ℕ → State F → State F
  | 0, _, state => state
  | n + 1, i, state => partialRoundsFrom n (i + 1) (mdsPartialLayerFast (partialSbox state i) i)

/-- `partial_rounds`. -/
def partialRounds (state : State F) : State F :=
  partialRoundsFrom nPartialRounds 0 (mdsPartialLayerInit (partialFirstConstantLayer state))

/-- `Poseidon::poseidon`. -/
def poseidon (input : State F) : State F :=
  fullRounds rc halfNFullRounds
    (partialRounds (fullRounds rc halfNFullRounds input 0)) (halfNFullRounds + nPartialRounds)

/-! ### Device -/

/-- `apply_round_constants`. -/
def applyRoundConstants (state : State F) (round : ℕ) : State F := fun i => state i + rc round i

/-- `apply_non_linearity` of one element. -/
def applyNonLinearityOne (state : F) : F :=
  let f1 := state
  let f2 := f1 * f1
  let f3 := f1 * f2
  let f4 := f2 * f2
  f3 * f4

/-- `apply_non_linearity`. -/
def applyNonLinearity (state : State F) : State F := fun i => applyNonLinearityOne (state i)

/-- `apply_mds_matrix_new`. -/
def applyMdsMatrixNew (state : State F) : State F := fun row =>
  (∑ i : Fin 12, (mdsMatrixCirc.getD ((i + 12 - row) % 12) 0 : ℕ) * state i) +
    (mdsMatrixDiag.getD row 0 : ℕ) * state row

/-- `partial_rounds_init`. -/
def partialRoundsInit (state : State F) : State F :=
  let values : State F := fun i => state i + (fastPartialFirstRoundConstant.getD i 0 : ℕ)
  Fin.cons (values 0) fun row =>
    ∑ col : Fin 11, values col.succ * (entry deviceFastPartialRoundInitialMatrix row col : ℕ)

/-- `partial_round_optimized`. -/
def partialRoundOptimized (state : State F) (round : ℕ) : State F :=
  let partialRound := round - halfNFullRounds
  let values : State F := Function.update state 0
    (applyNonLinearityOne (state 0) + (fastPartialRoundConstants.getD partialRound 0 : ℕ))
  Fin.cons
    (((mdsMatrixDiag.getD 0 0 + mdsMatrixCirc.getD 0 0 : ℕ) : F) * values 0 +
      ∑ i : Fin 11, values i.succ * (entry fastPartialRoundWHats partialRound i : ℕ))
    fun i => values 0 * (entry fastPartialRoundVs partialRound i : ℕ) + values i.succ

/-! ### Agreement -/

lemma applyRoundConstants_eq (state : State F) (round : ℕ) :
    applyRoundConstants rc state round = constantLayer rc state round := rfl

lemma applyNonLinearityOne_eq (x : F) : applyNonLinearityOne x = sboxMonomial x := rfl

lemma applyNonLinearity_eq (state : State F) : applyNonLinearity state = sboxLayer state := rfl

/-- The device walks along the columns of the circulant matrix, the host along its first row. -/
lemma applyMdsMatrixNew_eq (state : State F) : applyMdsMatrixNew state = mdsLayer state := by
  funext row
  have hindex : ∀ i : Fin 12, ((i : ℕ) + 12 - row) % 12 = ((i - row : Fin 12) : ℕ) := by
    revert row
    decide
  have hcirc : ∑ i : Fin 12, ((mdsMatrixCirc.getD ((i + 12 - row) % 12) 0 : ℕ) : F) * state i =
      ∑ i : Fin 12, state (i + row) * (mdsMatrixCirc.getD i 0 : ℕ) := by
    apply Fintype.sum_equiv (Equiv.subRight row)
    intro i
    rw [hindex, Equiv.subRight_apply, sub_add_cancel, mul_comm]
  rw [applyMdsMatrixNew, hcirc, mul_comm, mdsLayer, mdsRowShf]

lemma partialRoundsInit_eq (state : State F) :
    partialRoundsInit state = mdsPartialLayerInit (partialFirstConstantLayer state) := by
  rw [partialRoundsInit, mdsPartialLayerInit]
  refine congrArg₂ Fin.cons rfl (funext fun row => ?_)
  apply sum_congr rfl
  intro col _
  rw [deviceInitialMatrix_transpose row row.isLt col col.isLt]
  rfl

lemma partialRoundOptimized_eq (state : State F) (i : ℕ) :
    partialRoundOptimized state (i + halfNFullRounds) =
      mdsPartialLayerFast (partialSbox state i) i := by
  rw [partialRoundOptimized, Nat.add_sub_cancel, applyNonLinearityOne_eq, mdsPartialLayerFast]
  refine congrArg₂ Fin.cons ?_ (funext fun row => ?_)
  · rw [add_comm, mul_comm, add_comm (mdsMatrixDiag.getD 0 0)]
    rfl
  · rw [add_comm]
    rfl

end MegaZK.Poseidon
