import MegaZK.Fri.ProveOpenings
import MegaZK.Openings
import MegaZK.Tiles.FinalPoly

/-! # The final polynomial of the device

`FinalPolyService::compute`: the reduction of a batch to one polynomial, its division, and the shift
of what is there of the final polynomial, for the two batches. -/

namespace MegaZK

open Cover Grid Horner PolynomialCoeffs

variable {F : Type} [CommRing F]

/-! ### Source -/

/-- `FinalPolyConfig`. The polynomials of the next point are among the others. -/
structure FinalPolyConfig where
  degreeBits : ℕ
  rateBits : ℕ
  numPolys : ℕ
  numNext : ℕ
  nextStart : ℕ
  polys_pos : 0 < numPolys
  next_le : nextStart + numNext ≤ numPolys

/-- `FinalPolyScratch`, by elements of two words. -/
structure FinalPolyScratch (F : Type) [CommRing F] where
  reduction : DeviceBuffer (ExtensionField F)
  quotient : DeviceBuffer (ExtensionField F)
  coefficients : DeviceBuffer (ExtensionField F)

/-- The loop of `reduce` over the polynomials: the sum and the power of `alpha`. -/
def alphaLoop (column : ℕ → F) (alpha : ExtensionField F) (numNtts : ℕ) :
    ExtensionField F × ExtensionField F :=
  (List.range numNtts).foldl (fun s i =>
    (⟨s.1.re + column i * s.2.re, s.1.im + column i * s.2.im⟩, mulExt s.2 alpha)) (0, 1)

/-- `reduce`: every thread of the launch has a coefficient. -/
def reduceBatch (degreeBits numNtts offset : ℕ) (inputs : ℕ → F) (alpha : ExtensionField F)
    (b : DeviceBuffer (ExtensionField F)) : Option (DeviceBuffer (ExtensionField F)) := do
  let threads := 32
  let blocks := u32 (u32 (2 ^ degreeBits) + threads - 1) / threads
  let ids ← gridIds blocks threads (2 ^ 32)
  b.storeAll (ids.map fun gId =>
    (u32 (2 * gId) / 2, (alphaLoop (fun i =>
      inputs (u32 (offset <<< degreeBits) + gId + u32 (i <<< degreeBits))) alpha numNtts).1))

namespace FinalPolyConfig

variable (c : FinalPolyConfig) (fpInputs : ℕ → F) (alpha zeta g : ExtensionField F)

/-- `FinalPolyService::reduce`. -/
def reduce (numPolys offset : ℕ) (s : FinalPolyScratch F) : Option (FinalPolyScratch F) := do
  let reduction ← reduceBatch c.degreeBits (u32 numPolys) (u32 offset) fpInputs alpha s.reduction
  return { s with reduction }

/-- `FinalPolyService::divide_shift_add`. -/
def divideShiftAdd (order numPolys : ℕ) (s : FinalPolyScratch F) :
    Option (FinalPolyScratch F) := do
  let quotient ← fpDivide c.degreeBits order s.reduction.cell zeta g s.quotient
  let coefficients ← fpShiftAdd c.degreeBits (u32 numPolys) quotient.cell alpha s.coefficients
  return { s with quotient, coefficients }

/-- `FinalPolyService::compute`, up to the transform of the result. -/
def compute (s : FinalPolyScratch F) : Option (FinalPolyScratch F) := do
  let s ← c.reduce fpInputs alpha c.numPolys 0 s
  let s ← c.divideShiftAdd alpha zeta g 0 c.numPolys s
  let s ← c.reduce fpInputs alpha c.numNext c.nextStart s
  c.divideShiftAdd alpha zeta g 1 c.numNext s

/-- Polynomial `i` of the inputs. -/
def polynomial (i : ℕ) : List F :=
  (List.range (2 ^ c.degreeBits)).map fun k => fpInputs (i * 2 ^ c.degreeBits + k)

/-- The batches of `get_fri_instance`: all polynomials at `zeta`, those of the next point at
`g * zeta`. -/
def batches : List (FriBatch F) :=
  [⟨zeta, (List.range c.numPolys).map (c.polynomial fpInputs)⟩,
    ⟨g * zeta, (List.range c.numNext).map fun i => c.polynomial fpInputs (c.nextStart + i)⟩]

end FinalPolyConfig

/-! ### Specification -/

/-- The buffers as they are allocated: the quotient has an element more. -/
structure FinalPolyScratch.Allocated (c : FinalPolyConfig) (s : FinalPolyScratch F) : Prop where
  reduction_len : s.reduction.len = 2 ^ c.degreeBits
  quotient_len : s.quotient.len = 2 ^ c.degreeBits + 1
  coefficients_len : s.coefficients.len = (2 ^ c.degreeBits) <<< c.rateBits

/-- Allocated buffers, with zero in the elements that are read before they are written. -/
structure FinalPolyScratch.Zeroed (c : FinalPolyConfig) (s : FinalPolyScratch F) : Prop extends
    s.Allocated c where
  quotient_last : s.quotient.cell (2 ^ c.degreeBits) = 0
  coefficients_zero : ∀ k < 2 ^ c.degreeBits, s.coefficients.cell k = 0

/-- The final polynomial of the device is the one of the host. -/
def FinalPolyConfig.MatchesHost (c : FinalPolyConfig) : Prop :=
  ∀ (fpInputs : ℕ → GoldilocksField) (alpha zeta : QuadraticExtension)
    (s : FinalPolyScratch GoldilocksField), s.Zeroed c →
      let g := QuadraticExtension.primitiveRootOfUnity c.degreeBits
      ∃ out, c.compute fpInputs alpha zeta g s = some out ∧
        (List.range (2 ^ c.degreeBits)).map out.coefficients.cell =
          provedFinalPoly alpha (c.batches fpInputs zeta g)

/-- The element after the quotient, which the addition reads with the last coefficient. -/
def FinalPolyScratch.lastIf (c : FinalPolyConfig) (s : FinalPolyScratch F) (k : ℕ) :
    ExtensionField F :=
  if k + 1 = 2 ^ c.degreeBits then s.quotient.cell (2 ^ c.degreeBits) else 0

/-- Coefficient `k` of the quotient of a batch, from its columns. -/
def quotientCoeff (degreeBits numPolys : ℕ) (column : ℕ → ℕ → F) (alpha point : ExtensionField F)
    (k : ℕ) : ExtensionField F :=
  evalSum (fun j => evalSum (fun i => .C (column i (k + 1 + j))) numPolys alpha)
    (2 ^ degreeBits - (k + 1)) point

/-! ### Reduction -/

lemma alphaLoop_eq (column : ℕ → F) (alpha : ExtensionField F) (n : ℕ) :
    alphaLoop column alpha n = (evalSum (fun i => .C (column i)) n alpha, alpha ^ n) := by
  induction n with
  | zero => simp [alphaLoop, evalSum]
  | succ n ih =>
    rw [alphaLoop] at ih ⊢
    rw [List.range_succ, List.foldl_append, ih, List.foldl_cons, List.foldl_nil, mulExt_eq,
      ← pow_succ, evalSum, evalSum, Finset.sum_range_succ]
    congr 1
    ext <;> simp

section Reduce

variable {d : ℕ} (h : 7 ≤ d) (h' : d < 32)

include h h'

/-- There are as many threads as coefficients. -/
lemma coefficientIds_spec :
    ∃ ids, gridIds (u32 (u32 (2 ^ d) + 32 - 1) / 32) 32 (2 ^ 32) = some ids ∧
      ∀ gId, gId ∈ ids ↔ gId < 2 ^ d := by
  have hpow : 2 ^ d ≤ 2 ^ 31 := Nat.pow_le_pow_right (by decide) (by omega)
  have hblock : 2 ^ d = 2 ^ (d - 5) * 32 := by
    rw [← Nat.pow_add 2 (d - 5) 5, Nat.sub_add_cancel (by omega)]
  have hpos : 0 < 2 ^ (d - 5) := Nat.two_pow_pos _
  have hblocks : u32 (u32 (2 ^ d) + 32 - 1) / 32 = 2 ^ (d - 5) := by
    rw [u32_of_lt (x := 2 ^ d) (by omega), u32_of_lt (by omega)]
    omega
  have hvalid : ValidLaunch 1 (2 ^ (d - 5)) 32 :=
    ⟨⟨by decide, by decide⟩, ⟨hpos, by omega⟩, by decide, by decide⟩
  rw [hblocks, hblock]
  exact gridIds_full hvalid (by omega)

omit h in
lemma reduceAddress_eq {gId : ℕ} (hgId : gId < 2 ^ d) : u32 (2 * gId) / 2 = gId := by
  have hpow : 2 ^ d ≤ 2 ^ 31 := Nat.pow_le_pow_right (by decide) (by omega)
  rw [u32_of_lt (by omega), Nat.mul_div_cancel_left _ (by decide)]

lemma reduceBatch_spec (numNtts offset : ℕ) (inputs : ℕ → F) (alpha : ExtensionField F)
    (b : DeviceBuffer (ExtensionField F)) (hlen : 2 ^ d ≤ b.len) :
    ∃ b', reduceBatch d numNtts offset inputs alpha b = some b' ∧ b'.len = b.len ∧
      ∀ k < 2 ^ d, b'.cell k = evalSum
        (fun i => .C (inputs (u32 (offset * 2 ^ d) + k + u32 (i * 2 ^ d)))) numNtts alpha := by
  obtain ⟨ids, hgrid, hmem⟩ := coefficientIds_spec h h'
  have hcovers : Covers ids (fun gId => u32 (2 * gId) / 2) 0 (2 ^ d) := by
    rw [covers_congr fun gId hgId => reduceAddress_eq h' ((hmem gId).mp hgId)]
    refine ⟨?_, fun x _ y _ heq => heq, ?_⟩
    · intro gId hgId
      exact ⟨Nat.zero_le _, (hmem gId).mp hgId⟩
    · rintro k ⟨-, hk⟩
      exact ⟨k, (hmem k).mpr hk, rfl⟩
  obtain ⟨b', hb', hblen, hcell⟩ := b.storeAll_of_covers hcovers hlen
    (fun gId => (alphaLoop (fun i =>
      inputs (u32 (offset <<< d) + gId + u32 (i <<< d))) alpha numNtts).1) fun _ => List.mem_map
  refine ⟨b', ?_, hblen, ?_⟩
  · rw [reduceBatch]
    simp only [hgrid, Option.bind_eq_bind, Option.bind_some]
    exact hb'
  · intro k hk
    have hcell := hcell k ((hmem k).mpr hk)
    rw [reduceAddress_eq h' hk, alphaLoop_eq] at hcell
    simp only [hcell, Nat.shiftLeft_eq]

end Reduce

/-! ### Computation -/

section Compute

variable {c : FinalPolyConfig} (h : 7 ≤ c.degreeBits) (h' : c.degreeBits < 32)

include h h'

/-- The quotient, and what is in the element after it. -/
lemma divideShiftAdd_spec {numPolys : ℕ} (hpolys : u32 numPolys < 2 ^ 31) (order : ℕ)
    (alpha zeta g : ExtensionField F) {s : FinalPolyScratch F} (hs : s.Allocated c) :
    ∃ s', c.divideShiftAdd alpha zeta g order numPolys s = some s' ∧ s'.Allocated c ∧
      s'.quotient.cell (2 ^ c.degreeBits) = s.quotient.cell (2 ^ c.degreeBits) ∧
      ∀ k < 2 ^ c.degreeBits, s'.coefficients.cell k =
        s.coefficients.cell k * alpha ^ u32 numPolys +
          (evalSum (fun j => s.reduction.cell (k + 1 + j)) (2 ^ c.degreeBits - (k + 1))
            (if order = 0 then zeta else zeta * g) + s.lastIf c k) := by
  obtain ⟨m, hm_eq⟩ := Nat.exists_eq_add_of_le' h
  have hm : m < 25 := by omega
  have hdegree : 2 ^ c.degreeBits = divideTile * 2 ^ m := by
    rw [hm_eq, pow_add, mul_comm]
    rfl
  have hlen : 2 ^ c.degreeBits ≤ s.coefficients.len := by
    rw [hs.coefficients_len, Nat.shiftLeft_eq]
    exact Nat.le_mul_of_pos_right _ (Nat.two_pow_pos _)
  obtain ⟨q, hq, hcell⟩ := fpDivide_spec hm order s.reduction.cell zeta g s.quotient
    (by rw [hs.quotient_len, hdegree]; omega)
  obtain ⟨hqlen, hframe⟩ := fpDivide_frame hm hq
  obtain ⟨b, hb, hsum⟩ := fpShiftAdd_spec hm hpolys q.cell alpha s.coefficients
    (hdegree.symm.le.trans hlen)
  rw [← hm_eq] at hq hb
  rw [← hdegree] at hcell hframe
  have hlast : q.cell (2 ^ c.degreeBits) = s.quotient.cell (2 ^ c.degreeBits) := hframe _ le_rfl
  refine ⟨⟨s.reduction, q, b⟩, ?_, ?_, hlast, ?_⟩
  · rw [FinalPolyConfig.divideShiftAdd, hq, Option.bind_eq_bind, Option.bind_some, hb]
    rfl
  · exact ⟨hs.reduction_len, hqlen.trans hs.quotient_len,
      (fpShiftAdd_len hb).trans hs.coefficients_len⟩
  · intro k hk
    have hquotient : q.cell (k + 1) = evalSum (fun j => s.reduction.cell (k + 1 + j))
        (2 ^ c.degreeBits - (k + 1)) (if order = 0 then zeta else zeta * g) + s.lastIf c k := by
      by_cases hend : k + 1 = 2 ^ c.degreeBits
      · rw [FinalPolyScratch.lastIf, if_pos hend, hend, hlast, Nat.sub_self]
        simp [evalSum]
      · rw [FinalPolyScratch.lastIf, if_neg hend, hcell _ (by omega), add_zero]
    rw [← hquotient]
    exact hsum k (by rwa [hdegree] at hk)

lemma reduce_spec (numPolys offset : ℕ) (fpInputs : ℕ → F) (alpha : ExtensionField F)
    {s : FinalPolyScratch F} (hs : s.Allocated c) :
    ∃ s', c.reduce fpInputs alpha numPolys offset s = some s' ∧ s'.Allocated c ∧
      s'.quotient = s.quotient ∧ s'.coefficients = s.coefficients ∧
      ∀ k < 2 ^ c.degreeBits, s'.reduction.cell k = evalSum
        (fun i => .C (fpInputs (u32 (u32 offset * 2 ^ c.degreeBits) + k +
          u32 (i * 2 ^ c.degreeBits)))) (u32 numPolys) alpha := by
  obtain ⟨b, hb, hblen, hcell⟩ := reduceBatch_spec h h' (u32 numPolys) (u32 offset) fpInputs alpha
    s.reduction hs.reduction_len.ge
  refine ⟨⟨b, s.quotient, s.coefficients⟩, ?_, ?_, rfl, rfl, hcell⟩
  · rw [FinalPolyConfig.reduce, hb]
    rfl
  · exact ⟨hblen.trans hs.reduction_len, hs.quotient_len, hs.coefficients_len⟩

/-- Both batches, with the polynomials that the kernel finds at its addresses, over what was in the
buffers. -/
lemma compute_spec (hpolys : u32 c.numPolys < 2 ^ 31) (hnext : u32 c.numNext < 2 ^ 31)
    (fpInputs : ℕ → F) (alpha zeta g : ExtensionField F) {s : FinalPolyScratch F}
    (hs : s.Allocated c) :
    ∃ out, c.compute fpInputs alpha zeta g s = some out ∧ ∀ k < 2 ^ c.degreeBits,
      out.coefficients.cell k =
        (s.coefficients.cell k * alpha ^ u32 c.numPolys +
          (quotientCoeff c.degreeBits (u32 c.numPolys)
            (fun i x => fpInputs (x + u32 (i * 2 ^ c.degreeBits))) alpha zeta k + s.lastIf c k)) *
          alpha ^ u32 c.numNext +
        (quotientCoeff c.degreeBits (u32 c.numNext) (fun i x => fpInputs
          (u32 (u32 c.nextStart * 2 ^ c.degreeBits) + x + u32 (i * 2 ^ c.degreeBits)))
            alpha (zeta * g) k + s.lastIf c k) := by
  obtain ⟨s₁, hs₁, halloc₁, hquotient₁, hcoeffs₁, hred₁⟩ := reduce_spec h h' c.numPolys 0 fpInputs
    alpha hs
  obtain ⟨s₂, hs₂, halloc₂, hquotient₂, hcoeffs₂⟩ := divideShiftAdd_spec h h' hpolys 0 alpha zeta g
    halloc₁
  obtain ⟨s₃, hs₃, halloc₃, hquotient₃, hcoeffs₃, hred₃⟩ := reduce_spec h h' c.numNext c.nextStart
    fpInputs alpha halloc₂
  obtain ⟨s₄, hs₄, -, -, hcoeffs₄⟩ := divideShiftAdd_spec h h' hnext 1 alpha zeta g halloc₃
  have hlast₁ : ∀ k, s₁.lastIf c k = s.lastIf c k := by
    intro k
    rw [FinalPolyScratch.lastIf, hquotient₁, FinalPolyScratch.lastIf]
  have hlast₃ : ∀ k, s₃.lastIf c k = s.lastIf c k := by
    intro k
    rw [FinalPolyScratch.lastIf, hquotient₃, hquotient₂, hquotient₁, FinalPolyScratch.lastIf]
  refine ⟨s₄, ?_, ?_⟩
  · rw [FinalPolyConfig.compute, hs₁]
    simp only [Option.bind_eq_bind, Option.bind_some, hs₂, hs₃, hs₄]
  · intro k hk
    rw [hcoeffs₄ k hk, hcoeffs₃, hcoeffs₂ k hk, hcoeffs₁, hlast₁, hlast₃, if_pos rfl,
      if_neg one_ne_zero]
    congr 1
    · congr 3
      refine evalSum_congr (fun j hj => ?_) _
      rw [hred₁ _ (by omega)]
      simp [u32]
    · congr 1
      refine evalSum_congr (fun j hj => ?_) _
      exact hred₃ _ (by omega)

/-- The sum of the shifted quotients, if the buffers are zero. -/
lemma compute_zeroed (hpolys : u32 c.numPolys < 2 ^ 31) (hnext : u32 c.numNext < 2 ^ 31)
    (fpInputs : ℕ → F) (alpha zeta g : ExtensionField F) {s : FinalPolyScratch F}
    (hs : s.Zeroed c) :
    ∃ out, c.compute fpInputs alpha zeta g s = some out ∧ ∀ k < 2 ^ c.degreeBits,
      out.coefficients.cell k =
        quotientCoeff c.degreeBits (u32 c.numPolys)
          (fun i x => fpInputs (x + u32 (i * 2 ^ c.degreeBits))) alpha zeta k *
            alpha ^ u32 c.numNext +
        quotientCoeff c.degreeBits (u32 c.numNext) (fun i x => fpInputs
          (u32 (u32 c.nextStart * 2 ^ c.degreeBits) + x + u32 (i * 2 ^ c.degreeBits)))
            alpha (zeta * g) k := by
  obtain ⟨out, hout, hcell⟩ := compute_spec h h' hpolys hnext fpInputs alpha zeta g hs.toAllocated
  refine ⟨out, hout, fun k hk => ?_⟩
  have hlast : s.lastIf c k = 0 := by
    rw [FinalPolyScratch.lastIf, hs.quotient_last, ite_self]
  rw [hcell k hk, hlast, hs.coefficients_zero k hk, zero_mul, zero_add, add_zero, add_zero]

end Compute

/-! ### The host -/

section Host

omit [CommRing F] in
@[simp] lemma FinalPolyConfig.length_polynomial (c : FinalPolyConfig) (fpInputs : ℕ → F) (i : ℕ) :
    (c.polynomial fpInputs i).length = 2 ^ c.degreeBits := by
  simp [FinalPolyConfig.polynomial]

lemma FinalPolyConfig.polynomial_getD (c : FinalPolyConfig) (fpInputs : ℕ → F) (i : ℕ) {k : ℕ}
    (hk : k < 2 ^ c.degreeBits) :
    (c.polynomial fpInputs i).getD k 0 = fpInputs (i * 2 ^ c.degreeBits + k) := by
  simp [FinalPolyConfig.polynomial, List.getD_eq_getElem?_getD, hk]

lemma quotientCoeff_congr {d n : ℕ} {column column' : ℕ → ℕ → F}
    (h : ∀ i < n, ∀ x < 2 ^ d, column i x = column' i x) (alpha point : ExtensionField F) (k : ℕ) :
    quotientCoeff d n column alpha point k = quotientCoeff d n column' alpha point k := by
  refine evalSum_congr (fun j hj => evalSum_congr (fun i hi => ?_) alpha) point
  rw [h i hi _ (by omega)]

/-- The quotient of the reduction of `m` polynomials. -/
lemma divideByLinear_reduced (alpha : ReducingFactor (ExtensionField F)) (col : ℕ → List F) {d : ℕ}
    (hlen : ∀ i, (col i).length = 2 ^ d) (m : ℕ) (point : ExtensionField F) (k : ℕ) :
    (divideByLinear (alpha.reducePolysBase ((List.range m).map col)).1 point).getD k 0 =
      quotientCoeff d m (fun i x => (col i).getD x 0) alpha.base point k := by
  obtain ⟨hlength, -, hcoeff⟩ := reducePolysBase_spec alpha col hlen m
  rw [divideByLinear_getD, hlength, quotientCoeff]
  simp only [hcoeff]
  split_ifs with hm
  · subst hm
    simp [evalSum]
  · rfl

lemma reducePolysBase_snd (alpha : ReducingFactor (ExtensionField F)) (polys : List (List F)) :
    (alpha.reducePolysBase polys).2 = ⟨alpha.base, alpha.count + polys.length⟩ := rfl

lemma map_mul_getD (p : List (ExtensionField F)) (s : ExtensionField F) (k : ℕ) :
    (p.map fun c => c * s).getD k 0 = p.getD k 0 * s := by
  rw [← zero_mul s, List.getD_map]
  simp

variable (c : FinalPolyConfig) (fpInputs : ℕ → F) (alpha zeta g : ExtensionField F)

lemma FinalPolyConfig.provedFinalPoly_getD (k : ℕ) :
    (provedFinalPoly alpha (c.batches fpInputs zeta g)).getD k 0 =
      quotientCoeff c.degreeBits c.numPolys (fun i x => fpInputs (i * 2 ^ c.degreeBits + x)) alpha
          zeta k * alpha ^ c.numNext +
        quotientCoeff c.degreeBits c.numNext
          (fun i x => fpInputs ((c.nextStart + i) * 2 ^ c.degreeBits + x)) alpha (g * zeta) k := by
  simp only [provedFinalPoly, FinalPolyConfig.batches, proveBatches, ReducingFactor.shiftPoly,
    reducePolysBase_snd, addAssign_getD, map_mul_getD, padded_getD, List.getD_nil, zero_mul, zero_add,
    List.length_map, List.length_range]
  rw [divideByLinear_reduced _ _ (c.length_polynomial fpInputs),
    divideByLinear_reduced _ _ fun i => c.length_polynomial fpInputs (c.nextStart + i)]
  congr 1
  · congr 1
    exact quotientCoeff_congr (fun i _ x hx => c.polynomial_getD fpInputs i hx) _ _ _
  · exact quotientCoeff_congr (fun i _ x hx => c.polynomial_getD fpInputs _ hx) _ _ _

lemma FinalPolyConfig.length_provedFinalPoly :
    (provedFinalPoly alpha (c.batches fpInputs zeta g)).length = 2 ^ c.degreeBits := by
  obtain ⟨hlength, -, -⟩ := reducePolysBase_spec ⟨alpha, 0⟩ _ (c.length_polynomial fpInputs)
    c.numPolys
  obtain ⟨hlength', -, -⟩ := reducePolysBase_spec ⟨alpha, 0⟩ _
    (fun i => c.length_polynomial fpInputs (c.nextStart + i)) c.numNext
  have hdegree : 0 < 2 ^ c.degreeBits := Nat.two_pow_pos _
  rw [if_neg c.polys_pos.ne'] at hlength
  have hle : (if c.numNext = 0 then 0 else 2 ^ c.degreeBits) ≤ 2 ^ c.degreeBits := by
    split_ifs
    · exact Nat.zero_le _
    · exact le_rfl
  simp only [provedFinalPoly, FinalPolyConfig.batches, proveBatches, ReducingFactor.shiftPoly,
    reducePolysBase_snd, length_addAssign, List.length_append, length_divideByLinear,
    List.length_map, hlength, hlength', List.length_nil, List.length_singleton]
  omega

end Host

/-! ### Agreement -/

lemma map_range_eq {R : Type} [Zero R] {n : ℕ} {f : ℕ → R} {l : List R} (hlen : l.length = n)
    (h : ∀ k < n, f k = l.getD k 0) : (List.range n).map f = l := by
  refine List.ext_getElem (by simp [hlen]) fun k hk hk' => ?_
  rw [List.getElem_map, List.getElem_range, h k (by omega), List.getD_eq_getElem _ _ hk']

section Agreement

variable {c : FinalPolyConfig}

lemma FinalPolyConfig.matchesHost_of_fits (h : 7 ≤ c.degreeBits) (h' : c.degreeBits < 32)
    (hsize : c.numPolys * 2 ^ c.degreeBits ≤ 2 ^ 32) : c.MatchesHost := by
  have hpow : 2 ^ 7 ≤ 2 ^ c.degreeBits := Nat.pow_le_pow_right (by decide) h
  have hle := c.next_le
  have hpolys : c.numPolys < 2 ^ 31 := by
    have := (Nat.mul_le_mul_left c.numPolys hpow).trans hsize
    omega
  have hu : u32 c.numPolys = c.numPolys := u32_of_lt (by omega)
  have hu' : u32 c.numNext = c.numNext := u32_of_lt (by omega)
  have hstart : u32 c.nextStart = c.nextStart := u32_of_lt (by omega)
  have hcolumn : ∀ i < c.numPolys, u32 (i * 2 ^ c.degreeBits) = i * 2 ^ c.degreeBits :=
    fun i hi => u32_of_lt
      ((Nat.mul_lt_mul_of_pos_right hi (Nat.two_pow_pos _)).trans_le hsize)
  intro fpInputs alpha zeta s hs g
  obtain ⟨out, hout, hcell⟩ := compute_zeroed h h' (hu.trans_lt hpolys) (by omega) fpInputs alpha
    zeta g hs
  refine ⟨out, hout, map_range_eq (c.length_provedFinalPoly fpInputs alpha zeta g) ?_⟩
  intro k hk
  rw [hcell k hk, c.provedFinalPoly_getD, hu, hu', hstart, mul_comm zeta g]
  congr 1
  · congr 1
    refine quotientCoeff_congr (fun i hi x hx => ?_) _ _ _
    rw [hcolumn i hi, add_comm]
  · refine quotientCoeff_congr (fun i hi x hx => ?_) _ _ _
    rw [hcolumn _ (by omega), hcolumn i (by omega), add_mul, Nat.add_right_comm]

/-- A launch on `2 ^ 32` coefficients or more has no blocks. -/
lemma degreeBits_lt_of_reduce {numPolys offset : ℕ} {fpInputs : ℕ → F} {alpha : ExtensionField F}
    {s s' : FinalPolyScratch F} (h : c.reduce fpInputs alpha numPolys offset s = some s') :
    c.degreeBits < 32 := by
  by_contra hlarge
  have hdegree : u32 (2 ^ c.degreeBits) = 0 :=
    Nat.mod_eq_zero_of_dvd (Nat.pow_dvd_pow 2 (not_lt.mp hlarge))
  obtain ⟨b, hb, -⟩ := Option.bind_eq_some_iff.mp h
  obtain ⟨ids, hids, -⟩ := Option.bind_eq_some_iff.mp hb
  rw [hdegree] at hids
  cases hids

lemma numPolys_lt_of_divideShiftAdd (h : 7 ≤ c.degreeBits) (h' : c.degreeBits < 32)
    {order numPolys : ℕ} {alpha zeta g : ExtensionField F} {s s' : FinalPolyScratch F}
    (hs : c.divideShiftAdd alpha zeta g order numPolys s = some s') : u32 numPolys < 2 ^ 31 := by
  obtain ⟨m, hm⟩ := Nat.exists_eq_add_of_le' h
  obtain ⟨q, -, hs⟩ := Option.bind_eq_some_iff.mp hs
  obtain ⟨b, hb, -⟩ := Option.bind_eq_some_iff.mp hs
  rw [hm] at hb
  exact numPolys_lt_of_fpShiftAdd (by omega) hb

lemma compute_bounds (h : 7 ≤ c.degreeBits) {fpInputs : ℕ → F} {alpha zeta g : ExtensionField F}
    {s out : FinalPolyScratch F} (hout : c.compute fpInputs alpha zeta g s = some out) :
    c.degreeBits < 32 ∧ u32 c.numPolys < 2 ^ 31 ∧ u32 c.numNext < 2 ^ 31 := by
  obtain ⟨s₁, hs₁, hout⟩ := Option.bind_eq_some_iff.mp hout
  obtain ⟨s₂, hs₂, hout⟩ := Option.bind_eq_some_iff.mp hout
  obtain ⟨s₃, -, hs₄⟩ := Option.bind_eq_some_iff.mp hout
  have h' : c.degreeBits < 32 := degreeBits_lt_of_reduce hs₁
  exact ⟨h', numPolys_lt_of_divideShiftAdd h h' hs₂, numPolys_lt_of_divideShiftAdd h h' hs₄⟩

/-! ### The last polynomial a square -/

/-- Polynomials with nothing but a coefficient of `X ^ 2`. -/
lemma quotientCoeff_square {d n : ℕ} (hd : 2 ≤ d) {column : ℕ → ℕ → F}
    (h : ∀ i x, x < 2 ^ d → x ≠ 2 → column i x = 0) (alpha point : ExtensionField F) {k : ℕ}
    (hk : k ≤ 1) :
    quotientCoeff d n column alpha point k =
      evalSum (fun i => .C (column i 2)) n alpha * point ^ (1 - k) := by
  have hpow : 2 ^ 2 ≤ 2 ^ d := Nat.pow_le_pow_right (by decide) hd
  rw [quotientCoeff, evalSum, Finset.sum_eq_single (1 - k)]
  · have hindex : k + 1 + (1 - k) = 2 := by omega
    rw [hindex]
  · intro j hj hne
    have hj : j < 2 ^ d - (k + 1) := Finset.mem_range.mp hj
    have hzero : ∀ i, column i (k + 1 + j) = 0 := fun i => h i _ (by omega) (by omega)
    simp [hzero, evalSum]
  · intro hj
    exact absurd (Finset.mem_range.mpr (by omega)) hj

/-- The square is the last polynomial. -/
def FinalPolyConfig.lastSquare (c : FinalPolyConfig) : ℕ → GoldilocksField := fun a =>
  if a = (c.numPolys - 1) * 2 ^ c.degreeBits + 2 then 1 else 0

lemma FinalPolyConfig.lastSquare_eq (h : 2 ≤ c.degreeBits) (q : ℕ) {x : ℕ}
    (hx : x < 2 ^ c.degreeBits) :
    c.lastSquare (q * 2 ^ c.degreeBits + x) = if q = c.numPolys - 1 ∧ x = 2 then 1 else 0 := by
  have hpow : 2 ^ 2 ≤ 2 ^ c.degreeBits := Nat.pow_le_pow_right (by decide) h
  have hiff : q * 2 ^ c.degreeBits + x = (c.numPolys - 1) * 2 ^ c.degreeBits + 2 ↔
      q = c.numPolys - 1 ∧ x = 2 := by
    constructor
    · intro heq
      have hlt : 2 < 2 ^ c.degreeBits := by omega
      have heq : x + q * 2 ^ c.degreeBits = 2 + (c.numPolys - 1) * 2 ^ c.degreeBits := by omega
      exact (Scatter.stride_inj hx hlt heq).symm
    · rintro ⟨rfl, rfl⟩
      rfl
  rw [FinalPolyConfig.lastSquare]
  exact if_congr hiff rfl rfl

/-- Scratch without anything in it. -/
def FinalPolyScratch.zero (c : FinalPolyConfig) : FinalPolyScratch F :=
  ⟨⟨2 ^ c.degreeBits, 0⟩, ⟨2 ^ c.degreeBits + 1, 0⟩, ⟨(2 ^ c.degreeBits) <<< c.rateBits, 0⟩⟩

lemma FinalPolyScratch.zeroed_zero (c : FinalPolyConfig) :
    (FinalPolyScratch.zero c : FinalPolyScratch F).Zeroed c :=
  ⟨⟨rfl, rfl, rfl⟩, rfl, fun _ _ => rfl⟩

/-- A `u32` of a multiple of a power of two is a multiple. -/
lemma exists_u32_mul_two_pow (q : ℕ) {n : ℕ} (hn : n ≤ 32) : ∃ r, u32 (q * 2 ^ n) = r * 2 ^ n := by
  have hdvd : 2 ^ n ∣ u32 (q * 2 ^ n) :=
    (Nat.dvd_mod_iff (Nat.pow_dvd_pow 2 hn)).mpr (Nat.dvd_mul_left _ _)
  obtain ⟨r, hr⟩ := hdvd
  exact ⟨r, hr.trans (mul_comm _ _)⟩

/-- Both batches of the host have the square. -/
lemma FinalPolyConfig.exists_host (h : 2 ≤ c.degreeBits) (g : QuadraticExtension) :
    ∃ e : QuadraticExtension, ∀ k ≤ 1,
      (provedFinalPoly 1 (c.batches c.lastSquare 1 g)).getD k 0 = 1 + e * g ^ (1 - k) := by
  have hpow : 2 ^ 2 ≤ 2 ^ c.degreeBits := Nat.pow_le_pow_right (by decide) h
  have hhost : ∀ q x, x < 2 ^ c.degreeBits → x ≠ 2 →
      c.lastSquare (q * 2 ^ c.degreeBits + x) = 0 := by
    intro q x hx hne
    rw [c.lastSquare_eq h _ hx]
    exact if_neg fun hand => hne hand.2
  have hone : evalSum (fun i => .C (c.lastSquare (i * 2 ^ c.degreeBits + 2))) c.numPolys
      (1 : QuadraticExtension) = 1 := by
    rw [evalSum, Finset.sum_eq_single (c.numPolys - 1)]
    · rw [c.lastSquare_eq h _ (by omega), if_pos ⟨rfl, rfl⟩]
      simp
    · intro i _ hne
      rw [c.lastSquare_eq h _ (by omega), if_neg fun hand => hne hand.1]
      simp
    · intro hnotin
      have := c.polys_pos
      exact absurd (Finset.mem_range.mpr (by omega)) hnotin
  refine ⟨evalSum (fun i => .C (c.lastSquare ((c.nextStart + i) * 2 ^ c.degreeBits + 2))) c.numNext
    1, fun k hk => ?_⟩
  rw [c.provedFinalPoly_getD, quotientCoeff_square h hhost _ _ hk,
    quotientCoeff_square h (fun i => hhost (c.nextStart + i)) _ _ hk, hone]
  simp only [one_pow, mul_one]

/-- Of the device only the second one can: the columns begin at 32-bit offsets. -/
lemma FinalPolyConfig.exists_device (h : 7 ≤ c.degreeBits)
    (hlarge : 2 ^ 32 < c.numPolys * 2 ^ c.degreeBits) {g : QuadraticExtension}
    {s out : FinalPolyScratch GoldilocksField} (hs : s.Zeroed c)
    (hout : c.compute c.lastSquare 1 1 g s = some out) :
    ∃ m : QuadraticExtension, ∀ k ≤ 1, out.coefficients.cell k = m * g ^ (1 - k) := by
  obtain ⟨h', hpolys, hnext⟩ := compute_bounds h hout
  obtain ⟨out', hout', hcell⟩ := compute_zeroed h h' hpolys hnext c.lastSquare 1 1 g hs
  obtain rfl : out = out' := Option.some.inj (hout.symm.trans hout')
  have hpow : 2 ^ 7 ≤ 2 ^ c.degreeBits := Nat.pow_le_pow_right (by decide) h
  have hlast : 2 ^ 32 ≤ (c.numPolys - 1) * 2 ^ c.degreeBits := by
    have hsplit : 2 ^ 32 = 2 ^ (32 - c.degreeBits) * 2 ^ c.degreeBits := by
      rw [← pow_add, Nat.sub_add_cancel h'.le]
    rw [hsplit] at hlarge ⊢
    have hlt := Nat.lt_of_mul_lt_mul_right hlarge
    exact Nat.mul_le_mul_right _ (by omega)
  have hfirst : ∀ i x, x < 2 ^ c.degreeBits →
      c.lastSquare (x + u32 (i * 2 ^ c.degreeBits)) = 0 := by
    intro i x hx
    have := u32_mul_two_pow_add_le i h'.le
    exact if_neg (by omega)
  have hsecond : ∀ i x, x < 2 ^ c.degreeBits → x ≠ 2 → c.lastSquare
      (u32 (u32 c.nextStart * 2 ^ c.degreeBits) + x + u32 (i * 2 ^ c.degreeBits)) = 0 := by
    intro i x hx hne
    obtain ⟨q, hq⟩ := exists_u32_mul_two_pow (u32 c.nextStart) h'.le
    obtain ⟨r, hr⟩ := exists_u32_mul_two_pow i h'.le
    rw [hq, hr, Nat.add_right_comm, ← add_mul, c.lastSquare_eq (by omega) _ hx]
    exact if_neg fun hand => hne hand.2
  have hzero : evalSum (fun i => .C (c.lastSquare (2 + u32 (i * 2 ^ c.degreeBits))))
      (u32 c.numPolys) (1 : QuadraticExtension) = 0 := by
    simp [evalSum, fun i => hfirst i 2 (by omega)]
  refine ⟨evalSum (fun i => .C (c.lastSquare (u32 (u32 c.nextStart * 2 ^ c.degreeBits) + 2 +
    u32 (i * 2 ^ c.degreeBits)))) (u32 c.numNext) 1, fun k hk => ?_⟩
  rw [hcell k (by omega),
    quotientCoeff_square (by omega) (fun i x hx _ => hfirst i x hx) _ _ hk,
    quotientCoeff_square (by omega) hsecond _ _ hk, hzero, zero_mul, zero_mul, zero_add, one_mul]

lemma FinalPolyConfig.MatchesHost.fits (h : 7 ≤ c.degreeBits) (hmatch : c.MatchesHost) :
    c.degreeBits < 32 ∧ c.numPolys * 2 ^ c.degreeBits ≤ 2 ^ 32 := by
  have hzeroed : (FinalPolyScratch.zero c : FinalPolyScratch GoldilocksField).Zeroed c :=
    FinalPolyScratch.zeroed_zero c
  obtain ⟨out, hout, heq⟩ := hmatch c.lastSquare 1 1 _ hzeroed
  have h' : c.degreeBits < 32 := (compute_bounds h hout).1
  have hpow : 2 ^ 7 ≤ 2 ^ c.degreeBits := Nat.pow_le_pow_right (by decide) h
  refine ⟨h', not_lt.mp fun hlarge => ?_⟩
  obtain ⟨m, hdevice⟩ := c.exists_device h hlarge hzeroed hout
  obtain ⟨e, hhost⟩ := c.exists_host (by omega)
    (QuadraticExtension.primitiveRootOfUnity c.degreeBits)
  set g := QuadraticExtension.primitiveRootOfUnity c.degreeBits with hg
  have hcoeff : ∀ k ≤ 1, m * g ^ (1 - k) = 1 + e * g ^ (1 - k) := by
    intro k hk
    rw [← hdevice k hk, ← hhost k hk, ← heq]
    have hk' : k < 2 ^ c.degreeBits := by omega
    simp [List.getD_eq_getElem?_getD, hk']
  have hzero := hcoeff 0 (by omega)
  have hone := hcoeff 1 le_rfl
  simp only [Nat.sub_zero, pow_one, Nat.sub_self, pow_zero, mul_one] at hzero hone
  have hg_one : g = 1 := by
    rw [hone, add_mul, one_mul] at hzero
    exact add_right_cancel hzero
  exact (QuadraticExtension.isPrimitiveRoot_primitiveRootOfUnity (by omega) (by omega)).ne_one
    (Nat.one_lt_two_pow (by omega)) hg_one

end Agreement

/-- The final polynomial of the device is the one of the host exactly if the coefficients of all
polynomials have 32-bit addresses. -/
theorem FinalPolyConfig.matchesHost_iff (c : FinalPolyConfig) (h : 7 ≤ c.degreeBits) :
    c.MatchesHost ↔ c.degreeBits < 32 ∧ c.numPolys * 2 ^ c.degreeBits ≤ 2 ^ 32 := by
  constructor
  · exact FinalPolyConfig.MatchesHost.fits h
  · rintro ⟨h', hsize⟩
    exact matchesHost_of_fits h h' hsize

theorem FinalPolyConfig.matchesHost_iff_twelve :
    (⟨12, 3, 255, 2, 219, by decide, by decide⟩ : FinalPolyConfig).MatchesHost :=
  (FinalPolyConfig.matchesHost_iff ⟨12, 3, 255, 2, 219, by decide, by decide⟩ (by decide)).mpr
    (by decide)

/-- The polynomials of the standard recursion configuration, at `2 ^ 25` rows. -/
theorem FinalPolyConfig.not_matchesHost :
    ¬ (⟨25, 3, 255, 2, 219, by decide, by decide⟩ : FinalPolyConfig).MatchesHost := by
  intro hmatch
  obtain ⟨-, hsize⟩ := FinalPolyConfig.MatchesHost.fits (by decide) hmatch
  exact absurd hsize (by decide)

end MegaZK
