import MegaZK.Lib.Pratt
import MegaZK.Quotient.ZPartial

/-! # The permutation kernel and the host

For two challenges, rate 8 and chunks of 8 wires, `z_partial_partial` leaves the quotient values of
`compute_quotient_polys` at every point of a coset, where the offsets of the columns fit. -/

namespace MegaZK

open Scatter

variable {F : Type} [Field F]

/-- The circuits that `z_partial_partial` is written for. -/
structure QuotientCircuit extends CommonCircuitData where
  two_challenges : numChallenges = 2
  rate_eight : rateBits = 3
  degree_eight : maxQuotientDegreeFactor = 8
  dvd : 8 ∣ numRoutedWires
  two_chunks : 16 ≤ numRoutedWires
  routed_le : numRoutedWires ≤ numWires

/-! ### Columns on the device -/

namespace PolyLayout

variable {c : CommonCircuitData} (layout : PolyLayout c)

/-- The leaf of row `index` of coset `part`. -/
def leafIndex (c : CommonCircuitData) (part index : ℕ) : ℕ :=
  reverseBits part c.rateBits * 2 ^ c.degreeBits + index

/-- Where a column of a segment stands while coset `part` is evaluated. -/
def cell (b : ZPartialBuffers F) (seg : PolySegment) (part index col : ℕ) : F :=
  if col < layout.numLdes seg then
    b.ldes (layout.ldeOffset seg + col * 2 ^ c.ldeBits + leafIndex c part index)
  else b.polys ((c.counts.offset seg + col) * 2 ^ c.degreeBits + index)

/-- The buffers hold the values of the committed columns on coset `part`, and what `init_q`
computes. -/
structure Holds (b : ZPartialBuffers F) (p : VanishingInputs F) (leaves : CommittedLeaves F)
    (part : ℕ) : Prop where
  constantsSigmas : ∀ index < 2 ^ c.degreeBits, ∀ col < c.counts.count .constantsSigmas,
    layout.cell b .constantsSigmas part index col =
      leaves.constantsSigmas (leafIndex c part index) col
  wires : ∀ index < 2 ^ c.degreeBits, ∀ col < c.counts.count .wires,
    layout.cell b .wires part index col = leaves.wires (leafIndex c part index) col
  zsPartialProducts : ∀ index < 2 ^ c.degreeBits, ∀ col < c.counts.count .partialProducts,
    layout.cell b .partialProducts part index col =
      leaves.zsPartialProducts (leafIndex c part index) col
  points : ∀ i < 2 ^ c.ldeBits, b.points i = twoAdicSubgroup c.ldeBits i
  zHCoset : ∀ i < 2 ^ c.rateBits,
    b.zHCoset i = (ZeroPolyOnCoset.new c.degreeBits c.rateBits).evals i ∧
      b.zHCoset (2 ^ c.rateBits + i) = (ZeroPolyOnCoset.new c.degreeBits c.rateBits).inverses i
  kIs : ∀ j < c.numRoutedWires, b.kIs j = p.kIs j
  challenges : ∀ k < c.numChallenges,
    b.betas k = p.betas k ∧ b.gammas k = p.gammas k ∧ b.alphas k = p.alphas k

/-- The offsets of a column are below `2 ^ 32`. -/
def ColumnFits (seg : PolySegment) (col : ℕ) : Prop :=
  if col < layout.numLdes seg then layout.ldeOffset seg < 2 ^ 32 ∧ col * 2 ^ c.ldeBits < 2 ^ 32
  else c.counts.offset seg * 2 ^ c.degreeBits < 2 ^ 32 ∧ col * 2 ^ c.degreeBits < 2 ^ 32

instance (seg : PolySegment) (col : ℕ) : Decidable (layout.ColumnFits seg col) := by
  unfold ColumnFits
  infer_instance

/-- There is a row for every tile, and the offsets of the columns that are read fit. -/
structure ZPartialFits : Prop where
  tiles : 4 ≤ c.degreeBits
  shift : c.ldeBits < 32
  sigma : ∀ j < c.numRoutedWires, layout.ColumnFits .constantsSigmas (c.numConstants + j)
  wire : ∀ j < c.numRoutedWires, layout.ColumnFits .wires j
  zpp : ∀ j < c.counts.count .partialProducts, layout.ColumnFits .partialProducts j

lemma ldeOffset_eq (n : ℕ) : 2 ^ c.degreeBits <<< c.rateBits * n = n * 2 ^ c.ldeBits := by
  rw [Nat.shiftLeft_eq, ← pow_add, mul_comm, CommonCircuitData.ldeBits]

end PolyLayout

/-- From the combined gate terms of a coset, the kernel leaves the quotient values of the host. -/
def ZPartialAgrees (F : Type) [Field F] (c : QuotientCircuit)
    (layout : PolyLayout c.toCommonCircuitData) : Prop :=
  ∀ (p : VanishingInputs F) (leaves : CommittedLeaves F) (gateTerms : ℕ → List F),
    ∀ part < 8, ∀ b : ZPartialBuffers F, layout.Holds b p leaves part → ∀ output : ℕ → F,
      (∀ index < 2 ^ c.degreeBits, ∀ k < 2, output (index + k * 2 ^ c.ldeBits) =
        reduceWithPowers (p.alphas k) (gateTerms (reverseBits index c.degreeBits * 8 + part))) →
      ∃ output',
        (layout.zPartialArgs part).zPartialPartial b (zPartialThreads c.toCommonCircuitData) output
          = some output' ∧
        ∀ index < 2 ^ c.degreeBits,
          c.computeQuotientPolys p leaves gateTerms (reverseBits index c.degreeBits * 8 + part) =
            some ((List.range 2).map fun k => output' (index + k * 2 ^ c.ldeBits))

/-! ### What the kernel loads -/

lemma shl32_of_lt {x bits : ℕ} (h : x * 2 ^ bits < 2 ^ 32) : shl32 x bits = x * 2 ^ bits := by
  rw [shl32, Nat.shiftLeft_eq, u32_of_lt h]

namespace QuotientCircuit

variable {c : QuotientCircuit} {layout : PolyLayout c.toCommonCircuitData}
  {b : ZPartialBuffers F} {part : ℕ}

lemma ldeBits_eq : c.ldeBits = c.degreeBits + 3 := by
  rw [CommonCircuitData.ldeBits, c.rate_eight]

omit [Field F] in
lemma loadColumn_eq {seg : PolySegment} {index col start ldeStart : ℕ}
    (hfit : layout.ColumnFits seg col) (hlde : layout.ldeOffset seg = ldeStart * 2 ^ c.ldeBits)
    (hstart : c.counts.offset seg = start) :
    (layout.zPartialArgs part).loadColumn b
        ((layout.zPartialArgs part).indexLde index +
          shl32 ldeStart (layout.zPartialArgs part).ldeDegreeBits)
        (index + shl32 start (layout.zPartialArgs part).degreeBits) (layout.numLdes seg) col =
      layout.cell b seg part index col := by
  have hbits : (layout.zPartialArgs part).ldeDegreeBits = c.ldeBits := ldeBits_eq.symm
  have hdegree : (layout.zPartialArgs part).degreeBits = c.degreeBits := rfl
  have hindex : (layout.zPartialArgs part).indexLde index =
      PolyLayout.leafIndex c.toCommonCircuitData part index := by
    rw [ZPartialArgs.indexLde, PolyLayout.leafIndex, c.rate_eight, Nat.shiftLeft_eq, add_comm]
    rfl
  rw [ZPartialArgs.loadColumn, PolyLayout.cell, hbits, hdegree, hindex]
  unfold PolyLayout.ColumnFits at hfit
  split_ifs at hfit ⊢ with hres
  · rw [hlde] at hfit
    rw [shl32_of_lt hfit.1, shl32_of_lt hfit.2, hlde]
    congr 1
    omega
  · rw [hstart] at hfit
    rw [shl32_of_lt hfit.1, shl32_of_lt hfit.2, hstart]
    congr 1
    rw [Nat.add_mul]
    omega

omit [Field F] in
lemma const_eq {index col : ℕ} (hfit : layout.ColumnFits .constantsSigmas col) :
    (layout.zPartialArgs part).const b index col =
      layout.cell b .constantsSigmas part index col := by
  have hlde : layout.ldeOffset .constantsSigmas = 0 * 2 ^ c.ldeBits := (Nat.zero_mul _).symm
  have hstart : c.counts.offset .constantsSigmas = 0 := rfl
  rw [← loadColumn_eq hfit hlde hstart]
  simp only [ZPartialArgs.const, shl32, u32, Nat.zero_shiftLeft, Nat.zero_mod, Nat.add_zero]
  rfl

omit [Field F] in
lemma wire_eq {index col : ℕ} (hfit : layout.ColumnFits .wires col) :
    (layout.zPartialArgs part).wire b index col = layout.cell b .wires part index col := by
  refine loadColumn_eq hfit ?_ rfl
  exact PolyLayout.ldeOffset_eq _

omit [Field F] in
lemma zpp_eq {index col : ℕ} (hfit : layout.ColumnFits .partialProducts col) :
    (layout.zPartialArgs part).zpp b index col =
      layout.cell b .partialProducts part index col := by
  refine loadColumn_eq hfit ?_ rfl
  exact PolyLayout.ldeOffset_eq _

/-! ### Points of a coset -/

/-- The index of the host for row `index` of coset `part`. -/
def pointIndex (c : QuotientCircuit) (part index : ℕ) : ℕ :=
  reverseBits index c.degreeBits * 8 + part

lemma pointIndex_lt {index : ℕ} (hpart : part < 8) : c.pointIndex part index < 2 ^ c.ldeBits := by
  have hlt := reverseBits_lt index c.degreeBits
  rw [pointIndex, ldeBits_eq, pow_add]
  omega

lemma pointIndex_mod {index : ℕ} (hpart : part < 8) : c.pointIndex part index % 8 = part := by
  unfold pointIndex
  omega

/-- The leaf of the point with the given index in the subgroup. -/
lemma reverseBits_point (hpart : part < 8) (i : ℕ) :
    reverseBits (i * 8 + part) c.ldeBits =
      PolyLayout.leafIndex c.toCommonCircuitData part (reverseBits i c.degreeBits) := by
  rw [ldeBits_eq, PolyLayout.leafIndex, c.rate_eight]
  exact reverseBits_mul_add (m := 3) hpart

lemma clog_eq : Nat.clog 2 c.quotientDegreeFactor = 3 := by
  rw [CommonCircuitData.quotientDegreeFactor, c.degree_eight]
  decide

/-- The next point on the host is the next row of the same coset. -/
lemma pointIndex_next {index : ℕ} (hpart : part < 8) :
    (c.pointIndex part index + 2 ^ 3) % 2 ^ (c.degreeBits + 3) =
      (reverseBits index c.degreeBits + 1) % 2 ^ c.degreeBits * 8 + part := by
  have hsplit : c.pointIndex part index + 2 ^ 3 =
      part + 8 * (reverseBits index c.degreeBits + 1) := by
    unfold pointIndex
    omega
  have height : (2 : ℕ) ^ 3 = 8 := by norm_num
  rw [hsplit, pow_add, mul_comm (2 ^ c.degreeBits), Nat.mod_mul, height,
    Nat.add_mul_mod_self_left, Nat.add_mul_div_left _ _ (by decide), Nat.mod_eq_of_lt hpart,
    Nat.div_eq_of_lt hpart, Nat.zero_add, add_comm, mul_comm]

omit [Field F] in
/-- The rows that the host reads at a point. -/
lemma vanishingVars_eq (layout : PolyLayout c.toCommonCircuitData) {index : ℕ} (hpart : part < 8) (hindex : index < 2 ^ c.degreeBits)
    (leaves : CommittedLeaves F) :
    c.vanishingVars leaves (c.pointIndex part index) =
      { localWires := leaves.wires (PolyLayout.leafIndex c.toCommonCircuitData part index)
        localZs := leaves.zsPartialProducts
          (PolyLayout.leafIndex c.toCommonCircuitData part index)
        nextZs := leaves.zsPartialProducts (PolyLayout.leafIndex c.toCommonCircuitData part
          ((layout.zPartialArgs part).nextLdeStarted index))
        partialProducts := fun j => leaves.zsPartialProducts
          (PolyLayout.leafIndex c.toCommonCircuitData part index) (c.numChallenges + j)
        sSigmas := fun j => leaves.constantsSigmas
          (PolyLayout.leafIndex c.toCommonCircuitData part index) (c.numConstants + j) } := by
  have hlocal : reverseBits (c.pointIndex part index) c.ldeBits =
      PolyLayout.leafIndex c.toCommonCircuitData part index := by
    rw [pointIndex, reverseBits_point hpart, reverseBits_reverseBits hindex]
  have hnext : reverseBits ((c.pointIndex part index + 2 ^ 3) % 2 ^ (c.degreeBits + 3))
      c.ldeBits = PolyLayout.leafIndex c.toCommonCircuitData part
        ((layout.zPartialArgs part).nextLdeStarted index) := by
    rw [pointIndex_next hpart, reverseBits_point hpart]
    rfl
  simp only [CommonCircuitData.vanishingVars, CommonCircuitData.getLdeValues, clog_eq,
    c.rate_eight, Nat.sub_self, pow_zero, mul_one, hlocal, hnext]

/-! ### Terms -/

lemma numPartialProducts_succ : (c.numPartialProducts + 1) * 8 = c.numRoutedWires := by
  have hdvd := c.dvd
  have hchunks := c.two_chunks
  rw [CommonCircuitData.numPartialProducts, CommonCircuitData.quotientDegreeFactor,
    c.degree_eight]
  omega

lemma count_partialProducts :
    c.counts.count .partialProducts = 2 * (c.numPartialProducts + 1) := by
  have hrouted := c.numPartialProducts_succ
  change c.numRoutedWires / c.maxQuotientDegreeFactor * c.numChallenges = _
  rw [c.degree_eight, c.two_challenges]
  omega

section Terms

variable {p : VanishingInputs F} {leaves : CommittedLeaves F} {index : ℕ}

/-- `x` and `l_0_x` at the point. -/
lemma x_eq (hmem : layout.Holds b p leaves part) (hpart : part < 8) :
    (layout.zPartialArgs part).x b index =
      cosetShift * twoAdicSubgroup (c.degreeBits + 3) (c.pointIndex part index) := by
  rw [← ldeBits_eq, ← hmem.points _ (pointIndex_lt hpart)]
  rfl

lemma l0X_eq (hmem : layout.Holds b p leaves part) (hpart : part < 8) :
    (layout.zPartialArgs part).l0X b index =
      (ZeroPolyOnCoset.new c.degreeBits 3).evalL0 (c.pointIndex part index)
        (cosetShift * twoAdicSubgroup (c.degreeBits + 3) (c.pointIndex part index)) := by
  have hzh := (hmem.zHCoset part (by rw [c.rate_eight]; exact hpart)).1
  rw [c.rate_eight] at hzh
  have hmod : c.pointIndex part index %
      (ZeroPolyOnCoset.new c.degreeBits 3 : ZeroPolyOnCoset F).rate = part := pointIndex_mod hpart
  rw [ZPartialArgs.l0X, x_eq hmem hpart, ZeroPolyOnCoset.evalL0, ZeroPolyOnCoset.eval, hmod,
    sub_eq_add_neg]
  exact congrArg₂ _ hzh rfl

lemma zpp_eq_leaf (hfit : layout.ZPartialFits) (hmem : layout.Holds b p leaves part)
    (hindex : index < 2 ^ c.degreeBits) {col : ℕ} (hcol : col < 2 * (c.numPartialProducts + 1)) :
    (layout.zPartialArgs part).zpp b index col =
      leaves.zsPartialProducts (PolyLayout.leafIndex c.toCommonCircuitData part index) col := by
  rw [← count_partialProducts] at hcol
  rw [zpp_eq (hfit.zpp col hcol), hmem.zsPartialProducts index hindex col hcol]

lemma numerator_eq (hfit : layout.ZPartialFits) (hmem : layout.Holds b p leaves part)
    (hpart : part < 8) (hindex : index < 2 ^ c.degreeBits) {k j : ℕ} (hk : k < 2)
    (hj : j < c.numRoutedWires) :
    (layout.zPartialArgs part).numerator b index k j =
      leaves.wires (PolyLayout.leafIndex c.toCommonCircuitData part index) j +
        p.betas k * (p.kIs j * (cosetShift *
          twoAdicSubgroup (c.degreeBits + 3) (c.pointIndex part index))) + p.gammas k := by
  obtain ⟨hbeta, hgamma, -⟩ := hmem.challenges k (by rw [c.two_challenges]; exact hk)
  rw [ZPartialArgs.numerator, wire_eq (hfit.wire j hj),
    hmem.wires index hindex j (hj.trans_le c.routed_le), hbeta, hgamma, hmem.kIs j hj,
    x_eq hmem hpart]

lemma denominator_eq (hfit : layout.ZPartialFits) (hmem : layout.Holds b p leaves part)
    (hindex : index < 2 ^ c.degreeBits) {k j : ℕ} (hk : k < 2) (hj : j < c.numRoutedWires) :
    (layout.zPartialArgs part).denominator b index k j =
      leaves.wires (PolyLayout.leafIndex c.toCommonCircuitData part index) j +
        p.betas k * leaves.constantsSigmas
          (PolyLayout.leafIndex c.toCommonCircuitData part index) (c.numConstants + j) +
        p.gammas k := by
  obtain ⟨hbeta, hgamma, -⟩ := hmem.challenges k (by rw [c.two_challenges]; exact hk)
  have hcol : c.numConstants + j < c.counts.count .constantsSigmas := Nat.add_lt_add_left hj _
  have hoffset : j + ((layout.zPartialArgs part).numConstSigmas -
      (layout.zPartialArgs part).numRoutedWires) = c.numConstants + j := by
    change j + (c.numConstants + c.numRoutedWires - c.numRoutedWires) = _
    omega
  rw [ZPartialArgs.denominator, wire_eq (hfit.wire j hj), hoffset, const_eq (hfit.sigma j hj),
    hmem.wires index hindex j (hj.trans_le c.routed_le),
    hmem.constantsSigmas index hindex _ hcol, hbeta, hgamma]

/-- The host checks the terms that the kernel adds for challenge `k`. -/
lemma partialProductChecks_eq (hfit : layout.ZPartialFits) (hmem : layout.Holds b p leaves part)
    (hpart : part < 8) (hindex : index < 2 ^ c.degreeBits) {k : ℕ} (hk : k < 2) :
    c.partialProductChecks p (c.vanishingVars leaves (c.pointIndex part index))
        (cosetShift * twoAdicSubgroup (c.degreeBits + 3) (c.pointIndex part index)) k =
      some ((layout.zPartialArgs part).ppTerms b index k) := by
  have hchunks := c.two_chunks
  have hrouted := c.numPartialProducts_succ
  have hpos : 0 < (layout.zPartialArgs part).numPartialProducts := by
    change 0 < c.numPartialProducts
    omega
  have hnext : (layout.zPartialArgs part).nextLdeStarted index < 2 ^ c.degreeBits :=
    reverseBits_lt _ _
  have hfactor : c.quotientDegreeFactor = 8 := c.degree_eight
  rw [CommonCircuitData.partialProductChecks, vanishingVars_eq layout hpart hindex,
    hfactor, ← hrouted]
  refine (checkPartialProducts_eq (Nat.succ_pos c.numPartialProducts) (by decide) _ _ _ _ _).trans ?_
  rw [ZPartialArgs.ppTerms_eq _ _ _ _ hpos]
  have hacc : productAcc (c.numPartialProducts + 1)
      (leaves.zsPartialProducts (PolyLayout.leafIndex c.toCommonCircuitData part index) k)
      (leaves.zsPartialProducts (PolyLayout.leafIndex c.toCommonCircuitData part
        ((layout.zPartialArgs part).nextLdeStarted index)) k)
      (fun j => leaves.zsPartialProducts
        (PolyLayout.leafIndex c.toCommonCircuitData part index)
        (c.numChallenges + (k * c.numPartialProducts + j))) =
      (layout.zPartialArgs part).acc b index k := by
    refine productAcc_congr (zpp_eq_leaf hfit hmem hindex (by omega)).symm
      (zpp_eq_leaf hfit hmem hnext (by omega)).symm ?_
    intro j hj
    have hcol : c.numChallenges + k * c.numPartialProducts + j <
        2 * (c.numPartialProducts + 1) := by
      have hkn : k * c.numPartialProducts ≤ 1 * c.numPartialProducts :=
        Nat.mul_le_mul_right _ (by omega)
      have htwo := c.two_challenges
      omega
    rw [ZPartialArgs.pp, ← add_assoc]
    exact (zpp_eq_leaf hfit hmem hindex hcol).symm
  rw [← hacc]
  congr 1
  apply List.map_congr_left
  intro i hi
  have hi : i < c.numPartialProducts + 1 := List.mem_range.mp hi
  have hcol : ∀ t ∈ List.range 8, i * 8 + t < c.numRoutedWires := by
    intro t ht
    have ht := List.mem_range.mp ht
    omega
  rw [ZPartialArgs.chunkAccs_eq]
  refine congrArg₂ _ (congrArg₂ _ rfl ?_) (congrArg₂ _ rfl ?_)
  · exact (congrArg List.prod (List.map_congr_left fun t ht =>
      numerator_eq hfit hmem hpart hindex hk (hcol t ht))).symm
  · exact (congrArg List.prod (List.map_congr_left fun t ht =>
      denominator_eq hfit hmem hindex hk (hcol t ht))).symm

/-- The terms that the host combines are those of the kernel, followed by the gate terms. -/
lemma evalVanishingPolyBase_eq (hfit : layout.ZPartialFits) (hmem : layout.Holds b p leaves part)
    (hpart : part < 8) (hindex : index < 2 ^ c.degreeBits) (gateTerms : List F) :
    c.evalVanishingPolyBase p (c.vanishingVars leaves (c.pointIndex part index))
        ((ZeroPolyOnCoset.new c.degreeBits 3).evalL0 (c.pointIndex part index)
          (cosetShift * twoAdicSubgroup (c.degreeBits + 3) (c.pointIndex part index)))
        (cosetShift * twoAdicSubgroup (c.degreeBits + 3) (c.pointIndex part index)) gateTerms =
      some ((List.range 2).map fun k =>
        reduceWithPowers (p.alphas k)
          ((layout.zPartialArgs part).terms b index ++ gateTerms)) := by
  have hcheck := fun k (hk : k < 2) =>
    partialProductChecks_eq hfit hmem hpart hindex hk
  have hz : ∀ k < 2, (c.vanishingVars leaves (c.pointIndex part index)).localZs k =
      (layout.zPartialArgs part).zpp b index k := by
    intro k hk
    rw [vanishingVars_eq layout hpart hindex,
      zpp_eq_leaf hfit hmem hindex (by omega)]
  have hrange : List.range 2 = [0, 1] := rfl
  simp only [CommonCircuitData.evalVanishingPolyBase, c.two_challenges, hrange, List.mapM_cons,
    List.mapM_nil, hcheck 0 (by decide), hcheck 1 (by decide), Option.pure_def,
    Option.bind_eq_bind, Option.bind_some, ZPartialArgs.terms, nClgs, List.map_cons, List.map_nil,
    hz 0 (by decide), hz 1 (by decide), ← l0X_eq hmem hpart, sub_eq_add_neg, List.flatMap_cons,
    List.flatMap_nil, List.flatten_cons, List.flatten_nil]

/-- The quotient values of the host, from the terms of the kernel. -/
lemma computeQuotientPolys_eq (hfit : layout.ZPartialFits) (hmem : layout.Holds b p leaves part)
    (hpart : part < 8) (hindex : index < 2 ^ c.degreeBits) (gateTerms : ℕ → List F) :
    c.computeQuotientPolys p leaves gateTerms (c.pointIndex part index) =
      some ((List.range 2).map fun k =>
        (layout.zPartialArgs part).quotientValue b index k
          (reduceWithPowers (p.alphas k) (gateTerms (c.pointIndex part index)))) := by
  have hrate : ¬ c.rateBits < 3 := by
    rw [c.rate_eight]
    decide
  have hinv : (ZeroPolyOnCoset.new c.degreeBits 3).evalInverse (c.pointIndex part index) =
      b.zHCoset (8 + part) := by
    have hzh := (hmem.zHCoset part (by rw [c.rate_eight]; exact hpart)).2
    rw [c.rate_eight] at hzh
    exact (congrArg _ (pointIndex_mod hpart)).trans hzh.symm
  simp only [CommonCircuitData.computeQuotientPolys, clog_eq, if_neg hrate, Option.pure_def,
    Option.bind_eq_bind, Option.bind_some, evalVanishingPolyBase_eq hfit hmem hpart hindex,
    List.map_map, hinv]
  congr 1
  apply List.map_congr_left
  intro k hk
  have halpha := (hmem.challenges k (by rw [c.two_challenges]; exact List.mem_range.mp hk)).2.2
  simp only [Function.comp_apply, ZPartialArgs.quotientValue, foldl_mulPowAdd,
    foldl_mulPowAdd_alphaPow, halpha, reduceWithPowers_append]
  rw [zero_add, one_mul, one_mul, mul_comm (reduceWithPowers _ (gateTerms _))]
  rfl

end Terms

/-! ### The launch -/

section Launch

variable (layout) (part) (htiles : 4 ≤ c.degreeBits)

include htiles

lemma rowStep_mul : (layout.zPartialArgs part).rowStep * tileQ = 2 ^ c.degreeBits := by
  obtain ⟨m, hm⟩ : ∃ m, c.degreeBits = m + 4 := ⟨c.degreeBits - 4, by omega⟩
  have hrows : (layout.zPartialArgs part).nrows = 2 ^ m * tileQ := by
    change 2 ^ c.degreeBits = _
    rw [hm, pow_add]
    rfl
  rw [ZPartialArgs.rowStep, Nat.div_mul_cancel (hrows ▸ Nat.dvd_mul_left _ _)]
  rfl

omit htiles in
lemma shl32_challenge (hshift : c.ldeBits < 32) {k : ℕ} (hk : k < 2) :
    shl32 k (layout.zPartialArgs part).ldeDegreeBits = k * 2 ^ c.ldeBits := by
  have hbits : (layout.zPartialArgs part).ldeDegreeBits = c.ldeBits := ldeBits_eq.symm
  rw [hbits]
  apply shl32_of_lt
  have hle : 2 ^ c.ldeBits ≤ 2 ^ 31 := Nat.pow_le_pow_right (by decide) (by omega)
  have hmul : k * 2 ^ c.ldeBits ≤ 1 * 2 ^ 31 := Nat.mul_le_mul (by omega) hle
  omega

/-- Every cell of the slices is stored to, once. -/
lemma stores_spec (hshift : c.ldeBits < 32) (numThreads : ℕ) (hthreads : (layout.zPartialArgs part).rowStep ≤ numThreads) :
    (((layout.zPartialArgs part).stores numThreads).map fun s =>
      s.1 + shl32 s.2 (layout.zPartialArgs part).ldeDegreeBits).Nodup ∧
    ∀ index < 2 ^ c.degreeBits, ∀ k < 2,
      (index, k) ∈ (layout.zPartialArgs part).stores numThreads := by
  have hrows := rowStep_mul layout part htiles
  have hpos : 0 < (layout.zPartialArgs part).rowStep := by
    apply Nat.pos_of_ne_zero
    intro hzero
    rw [hzero, Nat.zero_mul] at hrows
    exact absurd hrows.symm (by positivity)
  constructor
  · rw [ZPartialArgs.stores, List.map_map]
    refine List.Nodup.map_on ?_ ((List.nodup_range.filter _).product
      (List.nodup_range.product List.nodup_range))
    rintro ⟨gId, j, k⟩ hmem ⟨gId', j', k'⟩ hmem' heq
    simp only [List.mem_product, List.mem_filter, List.mem_range, decide_eq_true_eq] at hmem hmem'
    obtain ⟨⟨-, hgId⟩, hj, hk⟩ := hmem
    obtain ⟨⟨-, hgId'⟩, hj', hk'⟩ := hmem'
    have hindex : ∀ g < (layout.zPartialArgs part).rowStep, ∀ i < tileQ,
        g + i * (layout.zPartialArgs part).rowStep < 2 ^ c.ldeBits := by
      intro g hg i hi
      have hle : (i + 1) * (layout.zPartialArgs part).rowStep ≤
          tileQ * (layout.zPartialArgs part).rowStep := Nat.mul_le_mul_right _ hi
      rw [mul_comm tileQ, hrows, Nat.succ_mul] at hle
      have hpow : 2 ^ c.degreeBits ≤ 2 ^ c.ldeBits :=
        Nat.pow_le_pow_right (by decide) (Nat.le_add_right _ _)
      omega
    simp only [Function.comp_apply] at heq
    rw [shl32_challenge layout part hshift hk, shl32_challenge layout part hshift hk'] at heq
    obtain ⟨hrow, rfl⟩ := stride_inj (hindex _ hgId _ hj) (hindex _ hgId' _ hj') heq
    obtain ⟨rfl, rfl⟩ := stride_inj hgId hgId' hrow
    rfl
  · intro index hindex k hk
    rw [← hrows] at hindex
    rw [ZPartialArgs.stores, List.mem_map]
    refine ⟨(index % (layout.zPartialArgs part).rowStep,
      index / (layout.zPartialArgs part).rowStep, k), ?_, ?_⟩
    · simp only [List.mem_product, List.mem_filter, List.mem_range, decide_eq_true_eq]
      have hmod := Nat.mod_lt index hpos
      exact ⟨⟨hmod.trans_le hthreads, hmod⟩, Nat.div_lt_of_lt_mul hindex, hk⟩
    · simp only [Nat.mod_add_div']

/-- The grid has a thread for every row of a tile. -/
lemma rowStep_le_threads :
    (layout.zPartialArgs part).rowStep ≤ zPartialThreads c.toCommonCircuitData := by
  have hrows := rowStep_mul layout part htiles
  unfold tileQ at hrows
  unfold zPartialThreads tileQ
  rw [c.degree_eight]
  omega

end Launch

end QuotientCircuit

namespace QuotientCircuit

variable {c : QuotientCircuit}

/-- What the launch leaves for challenge `k` at `index`. -/
lemma zPartialPartial_spec (layout : PolyLayout c.toCommonCircuitData) (b : ZPartialBuffers F) (part : ℕ) (htiles : 4 ≤ c.degreeBits)
    (hshift : c.ldeBits < 32) (output : ℕ → F) :
    ∃ output',
      (layout.zPartialArgs part).zPartialPartial b (zPartialThreads c.toCommonCircuitData) output =
        some output' ∧
      ∀ index < 2 ^ c.degreeBits, ∀ k < 2, output' (index + k * 2 ^ c.ldeBits) =
        (layout.zPartialArgs part).quotientValue b index k
          (output (index + k * 2 ^ c.ldeBits)) := by
  have hbits : ¬ 32 ≤ (layout.zPartialArgs part).ldeDegreeBits := by
    rw [ldeBits_eq] at hshift
    exact Nat.not_le.mpr hshift
  obtain ⟨hnodup, hmem⟩ := stores_spec layout part htiles hshift _ (rowStep_le_threads layout part htiles)
  refine ⟨_, if_neg hbits, ?_⟩
  intro index hindex k hk
  have hstore := modifyAll_of_mem
    (fun s quotientAcc => (layout.zPartialArgs part).quotientValue b s.1 s.2 quotientAcc) output
    hnodup (hmem index hindex k hk)
  rwa [shl32_challenge layout part hshift hk] at hstore

end QuotientCircuit

/-! ### The memory of a coset -/

namespace PolyLayout

variable {c : CommonCircuitData} (layout : PolyLayout c)

/-- The buffers while coset `part` is evaluated. -/
def deviceBuffers (p : VanishingInputs F) (leaves : CommittedLeaves F) (part : ℕ) :
    ZPartialBuffers F :=
  let z := ZeroPolyOnCoset.new c.degreeBits c.rateBits
  { points := twoAdicSubgroup c.ldeBits
    zHCoset := fun i =>
      if i < 2 ^ c.rateBits then z.evals i else z.inverses (i - 2 ^ c.rateBits)
    kIs := p.kIs
    alphas := p.alphas
    ldes := fun a =>
      let col := a / 2 ^ c.ldeBits
      let leaf := a % 2 ^ c.ldeBits
      if col < layout.numLdes .constantsSigmas then leaves.constantsSigmas leaf col
      else if col < layout.numLdes .constantsSigmas + layout.numLdes .wires then
        leaves.wires leaf (col - layout.numLdes .constantsSigmas)
      else leaves.zsPartialProducts leaf
        (col - (layout.numLdes .constantsSigmas + layout.numLdes .wires))
    polys := fun a =>
      let col := a / 2 ^ c.degreeBits
      let leaf := leafIndex c part (a % 2 ^ c.degreeBits)
      if col < c.counts.offset .wires then leaves.constantsSigmas leaf col
      else if col < c.counts.offset .partialProducts then
        leaves.wires leaf (col - c.counts.offset .wires)
      else leaves.zsPartialProducts leaf (col - c.counts.offset .partialProducts)
    betas := p.betas
    gammas := p.gammas }

lemma leafIndex_lt (part : ℕ) {index : ℕ} (hindex : index < 2 ^ c.degreeBits) :
    leafIndex c part index < 2 ^ c.ldeBits := by
  have hslice : (reverseBits part c.rateBits + 1) * 2 ^ c.degreeBits ≤
      2 ^ c.rateBits * 2 ^ c.degreeBits := Nat.mul_le_mul_right _ (reverseBits_lt part c.rateBits)
  rw [Nat.succ_mul, ← pow_add, Nat.add_comm c.rateBits] at hslice
  unfold leafIndex CommonCircuitData.ldeBits
  omega

/-- The column and the position in it of an address. -/
lemma column_and_position (col : ℕ) {n i : ℕ} (hi : i < n) :
    (col * n + i) / n = col ∧ (col * n + i) % n = i := by
  rw [mul_comm, Nat.mul_add_div (by omega), Nat.mul_add_mod, Nat.div_eq_of_lt hi,
    Nat.mod_eq_of_lt hi]
  exact ⟨rfl, rfl⟩

lemma holds_deviceBuffers (p : VanishingInputs F) (leaves : CommittedLeaves F) (part : ℕ) :
    layout.Holds (layout.deviceBuffers p leaves part) p leaves part := by
  have hldes : ∀ n col leaf, 2 ^ c.degreeBits <<< c.rateBits * n + col * 2 ^ c.ldeBits + leaf =
      (n + col) * 2 ^ c.ldeBits + leaf := by
    intro n col leaf
    rw [ldeOffset_eq, Nat.add_mul]
  have hlde := fun col {index : ℕ} (hindex : index < 2 ^ c.degreeBits) =>
    column_and_position col (leafIndex_lt part hindex)
  constructor
  case constantsSigmas =>
    intro index hindex col hcol
    rw [cell]
    split_ifs with hres
    · have hzero : layout.ldeOffset .constantsSigmas = 0 := rfl
      rw [hzero, Nat.zero_add]
      simp only [deviceBuffers, (hlde col hindex).1, (hlde col hindex).2, if_pos hres]
    · have hzero : c.counts.offset .constantsSigmas = 0 := rfl
      have hlt : col < c.counts.offset .wires := hcol
      rw [hzero, Nat.zero_add]
      simp only [deviceBuffers, (column_and_position col hindex).1,
        (column_and_position col hindex).2, if_pos hlt]
  case wires =>
    intro index hindex col hcol
    rw [cell]
    split_ifs with hres
    · have hdef : layout.ldeOffset .wires =
        2 ^ c.degreeBits <<< c.rateBits * layout.numLdes .constantsSigmas := rfl
      rw [hdef, hldes]
      simp only [deviceBuffers, (hlde _ hindex).1, (hlde _ hindex).2, Nat.add_sub_cancel_left,
        if_neg (Nat.not_lt.mpr (Nat.le_add_right _ col)), if_pos (Nat.add_lt_add_left hres _)]
    · have hlt : c.counts.offset .wires + col < c.counts.offset .partialProducts :=
        Nat.add_lt_add_left hcol _
      simp only [deviceBuffers, (column_and_position _ hindex).1,
        (column_and_position _ hindex).2, Nat.add_sub_cancel_left,
        if_neg (Nat.not_lt.mpr (Nat.le_add_right _ col)), if_pos hlt]
  case zsPartialProducts =>
    intro index hindex col hcol
    rw [cell]
    split_ifs with hres
    · have hdef : layout.ldeOffset .partialProducts = 2 ^ c.degreeBits <<< c.rateBits *
        (layout.numLdes .constantsSigmas + layout.numLdes .wires) := rfl
      have hfirst : ¬ layout.numLdes .constantsSigmas + layout.numLdes .wires + col <
        layout.numLdes .constantsSigmas := by omega
      rw [hdef, hldes]
      simp only [deviceBuffers, (hlde _ hindex).1, (hlde _ hindex).2, Nat.add_sub_cancel_left,
        if_neg hfirst, if_neg (Nat.not_lt.mpr (Nat.le_add_right _ col))]
    · have hle : c.counts.offset .wires ≤ c.counts.offset .partialProducts :=
        Nat.le_add_right _ _
      have hfirst : ¬ c.counts.offset .partialProducts + col < c.counts.offset .wires := by omega
      simp only [deviceBuffers, (column_and_position _ hindex).1,
        (column_and_position _ hindex).2, Nat.add_sub_cancel_left, if_neg hfirst,
        if_neg (Nat.not_lt.mpr (Nat.le_add_right _ col))]
  case zHCoset =>
    intro i hi
    have hge : ¬ 2 ^ c.rateBits + i < 2 ^ c.rateBits := by omega
    simp only [deviceBuffers, if_pos hi, if_neg hge, Nat.add_sub_cancel_left, and_self]
  case points =>
    intro i _
    rfl
  case kIs =>
    intro j _
    rfl
  case challenges =>
    intro k _
    exact ⟨rfl, rfl, rfl⟩

end PolyLayout

/-- Where the offsets fit, the kernel and the host agree at every point of every coset. -/
theorem zPartialAgrees_of_fits {c : QuotientCircuit} {layout : PolyLayout c.toCommonCircuitData}
    (hfit : layout.ZPartialFits) : ZPartialAgrees F c layout := by
  intro p leaves gateTerms part hpart b hmem output hgates
  obtain ⟨output', houtput, hcells⟩ :=
    QuotientCircuit.zPartialPartial_spec layout b part hfit.tiles hfit.shift output
  refine ⟨output', houtput, ?_⟩
  intro index hindex
  rw [← QuotientCircuit.pointIndex, QuotientCircuit.computeQuotientPolys_eq hfit hmem hpart hindex]
  congr 1
  apply List.map_congr_left
  intro k hk
  rw [hcells index hindex k (List.mem_range.mp hk), hgates index hindex k (List.mem_range.mp hk)]
  rfl

/-- The standard configuration. -/
def standardQuotientCircuit : QuotientCircuit where
  toCommonCircuitData := standardRecursion
  two_challenges := rfl
  rate_eight := rfl
  degree_eight := rfl
  dvd := by decide
  two_chunks := by decide
  routed_le := by decide

/-- The standard configuration with all columns transformed in place. -/
theorem zPartialAgrees_standardQuotientCircuit :
    ZPartialAgrees GoldilocksField standardQuotientCircuit (PolyLayout.withoutLdes _) :=
  zPartialAgrees_of_fits
    { tiles := by decide
      shift := by decide
      sigma := by decide
      wire := by decide
      zpp := by decide }

/-- The standard configuration in `2 ^ 22` rows. -/
def largeQuotientCircuit : QuotientCircuit where
  toCommonCircuitData :=
    { standardRecursion with
      degreeBits := 22
      arities_le := by decide
      lde_le := by decide }
  two_challenges := rfl
  rate_eight := rfl
  degree_eight := rfl
  dvd := by decide
  two_chunks := by decide
  routed_le := by decide

/-- All constants and sigmas, 44 wires and one `Z` stay on the device. -/
def largeLayout : PolyLayout largeQuotientCircuit.toCommonCircuitData where
  numLdes
    | .constantsSigmas => 84
    | .wires => 44
    | .partialProducts => 1
    | .quotients => 0
  numLdes_le := by
    intro seg
    cases seg <;> decide

/-- With the challenge zero only the first term is left. -/
lemma ZPartialArgs.quotientValue_of_alpha_zero (a : ZPartialArgs) (b : ZPartialBuffers F)
    (index k : ℕ) (quotientAcc : F) (halpha : b.alphas k = 0) :
    a.quotientValue b index k quotientAcc =
      a.l0X b index * (a.zpp b index 0 + -1) * b.zHCoset (rate + a.part) := by
  have hterms : a.terms b index = a.l0X b index * (a.zpp b index 0 + -1) ::
      ((a.l0X b index * (a.zpp b index 1 + -1)) ::
        (List.range nClgs).flatMap (a.ppTerms b index)) := rfl
  rw [quotientValue, foldl_mulPowAdd, foldl_mulPowAdd_alphaPow, halpha, hterms]
  simp only [reduceWithPowers, List.foldr_cons, List.length_cons, pow_succ]
  ring

/-- The shift of the coset is not a square, so no power of two takes it to one. -/
lemma seven_pow_ne_one {k : ℕ} (hk : k ≤ 31) : (7 : GoldilocksField) ^ 2 ^ k ≠ 1 := by
  intro h
  have hhalf : (7 : GoldilocksField) ^ (2 ^ 31 * (2 ^ 32 - 1)) = 1 := by
    rw [show 31 = k + (31 - k) by omega, pow_add, mul_assoc, pow_mul, h, one_pow]
  have hmod := (Pratt.natCast_pow_eq_one_iff (p := goldilocksOrder) (by decide) 7 _).mp hhalf
  rw [← Pratt.powMod_eq _ (by norm_num : 2 ^ 31 * (2 ^ 32 - 1) < 2 ^ 64)] at hmod
  exact absurd hmod (by decide)

/-- The offset of the resident `Z` wraps, and the kernel reads a constant instead. -/
theorem not_zPartialAgrees_largeLayout :
    ¬ ZPartialAgrees GoldilocksField largeQuotientCircuit largeLayout := by
  intro h
  let p : VanishingInputs GoldilocksField := ⟨fun _ => 0, fun _ => 0, fun _ => 0, fun _ => 0⟩
  let leaves : CommittedLeaves GoldilocksField := ⟨fun _ _ => 0, fun _ _ => 0, fun _ _ => 1⟩
  let inPlace := PolyLayout.withoutLdes largeQuotientCircuit.toCommonCircuitData
  let b := largeLayout.deviceBuffers p leaves 0
  let b' := inPlace.deviceBuffers p leaves 0
  obtain ⟨output', houtput, hhost⟩ := h p leaves (fun _ => []) 0 (by decide) b
    (largeLayout.holds_deviceBuffers p leaves 0) (fun _ => 0) fun _ _ _ _ => rfl
  obtain ⟨output, hrun, hcells⟩ := QuotientCircuit.zPartialPartial_spec largeLayout b 0
    (by decide) (by decide) (fun _ => 0)
  obtain rfl : output' = output := Option.some.inj (houtput.symm.trans hrun)
  -- the host agrees with the kernel where no column is resident
  have hfits : inPlace.ZPartialFits :=
    { tiles := by decide
      shift := by decide
      sigma := by decide
      wire := by decide
      zpp := by decide }
  have hinPlace := QuotientCircuit.computeQuotientPolys_eq hfits
    (inPlace.holds_deviceBuffers p leaves 0) (by decide) (by positivity : 0 < 2 ^ 22) fun _ => []
  have heq := (hhost 0 (by positivity)).symm.trans hinPlace
  have heq : output' (0 + 0 * 2 ^ largeQuotientCircuit.ldeBits) =
      (inPlace.zPartialArgs 0).quotientValue b' 0 0 (reduceWithPowers 0 []) := by
    have hhead := congrArg (fun l => l.bind List.head?) heq
    exact Option.some.inj hhead
  rw [hcells 0 (by positivity) 0 (by decide),
    ZPartialArgs.quotientValue_of_alpha_zero _ _ _ _ _ rfl,
    ZPartialArgs.quotientValue_of_alpha_zero _ _ _ _ _ rfl] at heq
  have hz : (largeLayout.zPartialArgs 0).zpp b 0 0 = 0 := by rfl
  have hz' : (inPlace.zPartialArgs 0).zpp b' 0 0 = 1 :=
    QuotientCircuit.zpp_eq_leaf hfits (inPlace.holds_deviceBuffers p leaves 0) (by positivity)
      (by decide)
  rw [hz, hz', add_neg_cancel, mul_zero, zero_mul, zero_add] at heq
  -- neither factor of the first term is zero
  have hholds := largeLayout.holds_deviceBuffers p leaves 0
  obtain ⟨heval, hinv⟩ := hholds.zHCoset 0 (by decide)
  have hx : (largeLayout.zPartialArgs 0).x b 0 = 7 := by
    rw [QuotientCircuit.x_eq hholds (by decide)]
    simp [cosetShift, twoAdicSubgroup, QuotientCircuit.pointIndex, reverseBits]
  have hne : (ZeroPolyOnCoset.new 22 3 : ZeroPolyOnCoset GoldilocksField).evals 0 ≠ 0 := by
    change (7 : GoldilocksField) ^ 2 ^ 22 * 1 - 1 ≠ 0
    rw [mul_one, sub_ne_zero]
    exact seven_pow_ne_one (by decide)
  have hden : ((2 ^ 22 : ℕ) : GoldilocksField) * (7 + -1) ≠ 0 := by decide
  rw [ZPartialArgs.l0X, hx] at heq
  have hl0 : b.zHCoset 0 * (((2 ^ 22 : ℕ) : GoldilocksField) * (7 + -1))⁻¹ ≠ 0 :=
    mul_ne_zero (heval ▸ hne) (inv_ne_zero hden)
  have hzh : b.zHCoset (8 + 0) ≠ 0 := by
    rw [show b.zHCoset (8 + 0) = _ from hinv]
    exact inv_ne_zero hne
  exact mul_ne_zero (mul_ne_zero hl0 (neg_ne_zero.mpr one_ne_zero)) hzh heq

end MegaZK
