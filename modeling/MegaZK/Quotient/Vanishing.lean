import MegaZK.PartialProducts.Host
import MegaZK.Query.Leaves
import MegaZK.Quotient.Constraints

/-! # The vanishing polynomial on the host

`compute_quotient_polys` at one point: the terms of `eval_vanishing_poly_base_batch`, combined with
powers of the challenges and divided by the vanishing polynomial of the subgroup. The batches treat
their points one by one; a panic is `none`. The circuits of the device have no lookups. -/

namespace MegaZK

variable {F : Type} [Field F]

/-! ### The subgroup and its coset -/

/-- `MULTIPLICATIVE_GROUP_GENERATOR`, which is also `coset_shift`. -/
def cosetShift : F := 7

/-- `two_adic_subgroup`. -/
def twoAdicSubgroup (nLog i : ℕ) : F := primitiveRootOfUnity nLog ^ i

/-- `ZeroPolyOnCoset`. -/
structure ZeroPolyOnCoset (F : Type) where
  n : F
  rate : ℕ
  evals : ℕ → F
  inverses : ℕ → F

namespace ZeroPolyOnCoset

/-- `ZeroPolyOnCoset::new`. -/
def new (nLog rateBits : ℕ) : ZeroPolyOnCoset F :=
  let gPowN := cosetShift ^ 2 ^ nLog
  let evals := fun j => gPowN * twoAdicSubgroup rateBits j - 1
  { n := ((2 ^ nLog : ℕ) : F)
    rate := 2 ^ rateBits
    evals := evals
    inverses := fun j => (evals j)⁻¹ }

variable (z : ZeroPolyOnCoset F)

/-- `eval`. -/
def eval (i : ℕ) : F := z.evals (i % z.rate)

/-- `eval_inverse`. -/
def evalInverse (i : ℕ) : F := z.inverses (i % z.rate)

/-- `eval_l_0`. -/
def evalL0 (i : ℕ) (x : F) : F := z.eval i * (z.n * (x - 1))⁻¹

end ZeroPolyOnCoset

/-! ### The terms -/

/-- `check_partial_products`; `zip_eq` panics where the lengths differ. -/
def checkPartialProducts (numerators denominators partials : List F) (zX zGx : F)
    (maxDegree : ℕ) : Option (List F) :=
  let productAccs := zX :: (partials ++ [zGx])
  let numeChunks := chunks maxDegree numerators
  let denoChunks := chunks maxDegree denominators
  if numeChunks.length = denoChunks.length ∧ numeChunks.length = productAccs.length - 1 then
    some (List.zipWith
      (fun chunk accs => accs.1 * chunk.1.prod - accs.2 * chunk.2.prod)
      (numeChunks.zip denoChunks) (productAccs.zip productAccs.tail))
  else none

/-- The accumulators that the checks of `n` chunks go through: `Z(x)`, the partial products and
`Z(gx)`. -/
def productAcc (n : ℕ) (zX zGx : F) (pp : ℕ → F) : ℕ → F
  | 0 => zX
  | i + 1 => if i + 1 < n then pp i else zGx

omit [Field F] in
lemma productAccs_eq {n : ℕ} (hn : 0 < n) (zX zGx : F) (pp : ℕ → F) :
    zX :: ((List.range (n - 1)).map pp ++ [zGx]) =
      (List.range (n + 1)).map (productAcc n zX zGx pp) := by
  obtain ⟨m, rfl⟩ : ∃ m, n = m + 1 := ⟨n - 1, by omega⟩
  rw [List.range_succ_eq_map, List.map_cons, List.map_map, Nat.add_sub_cancel, List.range_succ,
    List.map_append]
  congr 2
  · apply List.map_congr_left
    intro i hi
    have hlt : i + 1 < m + 1 := Nat.succ_lt_succ (List.mem_range.mp hi)
    simp only [Function.comp_apply, productAcc, if_pos hlt]
  · simp [productAcc]

omit [Field F] in
lemma productAcc_congr {n : ℕ} {pp pp' : ℕ → F} {zX zX' zGx zGx' : F} (hzX : zX = zX')
    (hzGx : zGx = zGx') (hpp : ∀ i, i + 1 < n → pp i = pp' i) :
    productAcc n zX zGx pp = productAcc n zX' zGx' pp' := by
  funext i
  cases i with
  | zero => exact hzX
  | succ i =>
    simp only [productAcc]
    split_ifs with hi
    · exact hpp i hi
    · exact hzGx

/-- One check for each of `n` chunks of `q` factors. -/
lemma checkPartialProducts_eq {n q : ℕ} (hn : 0 < n) (hq : 0 < q) (f g pp : ℕ → F) (zX zGx : F) :
    checkPartialProducts ((List.range (n * q)).map f) ((List.range (n * q)).map g)
        ((List.range (n - 1)).map pp) zX zGx q =
      some ((List.range n).map fun i =>
        productAcc n zX zGx pp i * ((List.range q).map fun t => f (i * q + t)).prod -
          productAcc n zX zGx pp (i + 1) * ((List.range q).map fun t => g (i * q + t)).prod) := by
  unfold checkPartialProducts
  rw [productAccs_eq hn, chunks_map_range f hq, chunks_map_range g hq, if_pos (by simp)]
  congr 1
  apply List.ext_getElem
  · simp
  · intro i h1 h2
    simp

/-- The challenges and coset representatives that the terms depend on. -/
structure VanishingInputs (F : Type) where
  kIs : ℕ → F
  betas : ℕ → F
  gammas : ℕ → F
  alphas : ℕ → F

/-- The columns at a point, and the `Z` columns at the next one. -/
structure VanishingVars (F : Type) where
  localWires : ℕ → F
  localZs : ℕ → F
  nextZs : ℕ → F
  partialProducts : ℕ → F
  sSigmas : ℕ → F

namespace CommonCircuitData

variable (c : CommonCircuitData)

/-- The partial product checks of challenge `i`. -/
def partialProductChecks (p : VanishingInputs F) (vars : VanishingVars F) (x : F) (i : ℕ) :
    Option (List F) :=
  let numeratorValues := (List.range c.numRoutedWires).map fun j =>
    vars.localWires j + p.betas i * (p.kIs j * x) + p.gammas i
  let denominatorValues := (List.range c.numRoutedWires).map fun j =>
    vars.localWires j + p.betas i * vars.sSigmas j + p.gammas i
  let currentPartialProducts := (List.range c.numPartialProducts).map fun j =>
    vars.partialProducts (i * c.numPartialProducts + j)
  checkPartialProducts numeratorValues denominatorValues currentPartialProducts (vars.localZs i)
    (vars.nextZs i) c.quotientDegreeFactor

/-- `eval_vanishing_poly_base_batch` at one point. -/
def evalVanishingPolyBase (p : VanishingInputs F) (vars : VanishingVars F) (l0X x : F)
    (constraintTerms : List F) : Option (List F) := do
  let vanishingZ1Terms := (List.range c.numChallenges).map fun i => l0X * (vars.localZs i - 1)
  let checks ← (List.range c.numChallenges).mapM (c.partialProductChecks p vars x)
  let vanishingTerms := vanishingZ1Terms ++ checks.flatten ++ constraintTerms
  return (List.range c.numChallenges).map fun i => reduceWithPowers (p.alphas i) vanishingTerms

end CommonCircuitData

/-! ### The quotient -/

/-- The leaves of the commitments, by their position and column. -/
structure CommittedLeaves (F : Type) where
  constantsSigmas : ℕ → ℕ → F
  wires : ℕ → ℕ → F
  zsPartialProducts : ℕ → ℕ → F

namespace CommonCircuitData

variable (c : CommonCircuitData)

/-- `get_lde_values`. -/
def getLdeValues (leaves : ℕ → ℕ → F) (index step : ℕ) : ℕ → F :=
  leaves (reverseBits (index * step) c.ldeBits)

/-- The point and the columns that `compute_quotient_polys` evaluates for index `i`. -/
def vanishingVars (leaves : CommittedLeaves F) (i : ℕ) : VanishingVars F :=
  let quotientDegreeBits := Nat.clog 2 c.quotientDegreeFactor
  let step := 2 ^ (c.rateBits - quotientDegreeBits)
  let nextStep := 2 ^ quotientDegreeBits
  let ldeSize := 2 ^ (c.degreeBits + quotientDegreeBits)
  let iNext := (i + nextStep) % ldeSize
  let localConstantsSigmas := c.getLdeValues leaves.constantsSigmas i step
  let localZsPartial := c.getLdeValues leaves.zsPartialProducts i step
  { localWires := c.getLdeValues leaves.wires i step
    localZs := localZsPartial
    nextZs := c.getLdeValues leaves.zsPartialProducts iNext step
    partialProducts := fun j => localZsPartial (c.numChallenges + j)
    sSigmas := fun j => localConstantsSigmas (c.numConstants + j) }

/-- `compute_quotient_polys` at index `i`, from the terms of the gates there. -/
def computeQuotientPolys (p : VanishingInputs F) (leaves : CommittedLeaves F)
    (constraintTerms : ℕ → List F) (i : ℕ) : Option (List F) := do
  let quotientDegreeBits := Nat.clog 2 c.quotientDegreeFactor
  if c.rateBits < quotientDegreeBits then none
  let shiftedX := cosetShift * twoAdicSubgroup (c.degreeBits + quotientDegreeBits) i
  let zHOnCoset := ZeroPolyOnCoset.new c.degreeBits quotientDegreeBits
  let quotientValues ← c.evalVanishingPolyBase p (c.vanishingVars leaves i)
    (zHOnCoset.evalL0 i shiftedX) shiftedX (constraintTerms i)
  return quotientValues.map (· * zHOnCoset.evalInverse i)

end CommonCircuitData

end MegaZK
