import MegaZK.PartialProducts.Kernels

/-! # The device computes the columns of the host

The columns that `zp` leaves in the partial products segment against those of
`wires_permutation_partial_products_and_zs`, and the sizes for which they agree. -/

namespace MegaZK

open Grid Scan Dft

variable {F : Type} [Field F]

/-- A circuit in the reach of the partial product kernels. -/
structure PermutationCircuit extends CommonCircuitData where
  two_challenges : numChallenges = 2
  dvd : toCommonCircuitData.quotientDegreeFactor ∣ numRoutedWires
  ten_le_degreeBits : 10 ≤ degreeBits
  routed_le : numRoutedWires ≤ numWires

namespace CommonCircuitData

variable (c : CommonCircuitData)

/-- `degree`. -/
def degree : ℕ := 2 ^ c.degreeBits

/-- The configuration of `GpuProverSetup::new`. -/
def partialProductConfig : PartialProductConfig where
  quotientDegreeFactor := c.quotientDegreeFactor
  degree := c.degree
  degreeBits := c.degreeBits
  numRoutedWires := c.numRoutedWires
  numChallenges := c.numChallenges
  numConstants := c.numConstants

/-- The scratch buffers of `GpuProverSetup::new`. -/
def partialProductScratch (qv part pp : ℕ → F) : PartialProductScratch F :=
  .alloc (c.degree * c.numChallenges * c.numRoutedWires / c.quotientDegreeFactor) qv part pp

/-- `fp_inputs` before the partial products: the sigmas and the wires are coefficients. -/
structure CoefficientColumns (ω : F) (cols : PermutationColumns F) (fp : DeviceBuffer F) :
    Prop where
  len : fp.len = c.degree * c.counts.numPolys
  sigma : ∀ j < c.numRoutedWires, ∀ i < c.degree,
    fp.cell (c.numConstants * c.degree + j * c.degree + i) =
      idft ω c.degree (fun i => cols.sigma i j) i
  wire : ∀ j < c.numRoutedWires, ∀ i < c.degree,
    fp.cell (c.degree * c.counts.offset .wires + j * c.degree + i) =
      idft ω c.degree (fun i => cols.wire i j) i

/-- The columns of a segment. -/
def segmentColumns (fp : DeviceBuffer F) (seg : PolySegment) : List (List F) :=
  (List.range (c.counts.count seg)).map fun k => (List.range c.degree).map fun i =>
    fp.cell (c.degree * c.counts.offset seg + k * c.degree + i)

/-- `zp` succeeds, leaves the columns that the host commits to, and nothing else. -/
def ZpMatches [DecidableEq F] (ω : F) (p : PermutationInputs F) (cols : PermutationColumns F)
    (scratch : PartialProductScratch F) (fp : DeviceBuffer F) : Prop :=
  ∃ fp', zp c.partialProductConfig c.counts ω p scratch fp = .ok fp' ∧
    zsPartialProducts c p cols = some (c.segmentColumns fp' .partialProducts) ∧
    ∀ a, (a < c.degree * c.counts.offset .partialProducts ∨
      c.degree * c.counts.offset .quotients ≤ a) → fp'.cell a = fp.cell a

/-- The sizes for which the launches are valid and all indices fit in 32 bits. -/
structure PartialProductsFit : Prop where
  threads : c.numChunks ≤ maxThreadsPerBlock
  products : 2 * (c.degree * c.numChunks) ≤ 2 ^ 31
  routed : c.numRoutedWires * c.degree ≤ 2 ^ 32
  constants : c.numConstants * c.degree < 2 ^ 32

end CommonCircuitData

namespace PermutationCircuit

variable (c : PermutationCircuit)

lemma counts_partialProducts : c.counts.count .partialProducts = c.numChunks * 2 := by
  rw [← c.two_challenges]
  rfl

/-- The places of the columns of both challenges, in order. -/
lemma map_range_zsColumnIdx {α : Type} (g : ℕ → α) {numChunks : ℕ} (hC : 0 < numChunks) :
    (List.range (numChunks * 2)).map g =
      (List.range 2).map (fun k => g (zsColumnIdx numChunks k (numChunks - 1))) ++
        ((List.range 2).map fun k => (List.range (numChunks - 1)).map fun j =>
          g (zsColumnIdx numChunks k j)).flatten := by
  obtain ⟨m, rfl⟩ := Nat.exists_eq_succ_of_ne_zero hC.ne'
  have hne : ∀ k, ∀ j ∈ List.range m, zsColumnIdx (m + 1) k j = 2 + k * m + j := by
    intro k j hj
    have hjm := List.mem_range.mp hj
    simp [zsColumnIdx]
    omega
  have hsplit : (m + 1) * 2 = 2 + (m + m) := by ring
  have hcols : ∀ k, ((List.range m).map fun j => g (zsColumnIdx (m + 1) k j)) =
      (List.range m).map fun j => g (2 + k * m + j) := by
    intro k
    apply List.map_congr_left
    intro j hj
    rw [hne k j hj]
  simp only [Nat.succ_eq_add_one, Nat.add_sub_cancel, hcols]
  rw [hsplit, List.range_add, List.range_add]
  simp [List.range_succ, zsColumnIdx, Function.comp_def, Nat.add_assoc]

/-- The columns of the partial products segment against those of the host, entry by entry. -/
lemma zsPartialProducts_eq_iff [DecidableEq F] {p : PermutationInputs F}
    {cols : PermutationColumns F} {fp : DeviceBuffer F}
    (hden : cols.DenominatorsNeZero p c.degree c.numRoutedWires 2) :
    zsPartialProducts c.toCommonCircuitData p cols =
        some (c.segmentColumns fp .partialProducts) ↔
      ∀ k < 2, ∀ j < c.numChunks, ∀ i < c.degree,
        fp.cell (c.degree * c.counts.offset .partialProducts + zsColumnIdx c.numChunks k j * c.degree
          + i) = zsEntry c.numChunks
            (cols.chunkQuotient p c.numChunks c.quotientDegreeFactor k) j i := by
  have hC := c.numChunks_pos c.dvd
  have hhost := zsPartialProducts_eq c.dvd p cols (by rw [c.two_challenges]; exact hden)
  rw [hhost, c.two_challenges, CommonCircuitData.segmentColumns, c.counts_partialProducts,
    map_range_zsColumnIdx _ hC, Option.some_inj]
  constructor
  · intro h k hk j hj i hi
    obtain ⟨hzs, hpps⟩ := List.append_inj h (by simp)
    have hcol : c.zsColumn p cols k j = (List.range c.degree).map fun i =>
        fp.cell (c.degree * c.counts.offset .partialProducts +
          zsColumnIdx c.numChunks k j * c.degree + i) := by
      by_cases hlast : j = c.numChunks - 1
      · rw [hlast]
        exact List.map_inj_left.mp hzs k (List.mem_range.mpr hk)
      · have hj' : j ∈ List.range (c.numChunks - 1) := List.mem_range.mpr (by omega)
        rw [List.range_succ, List.range_succ] at hpps
        simp only [List.range_zero, List.nil_append, List.map_append, List.map_cons, List.map_nil,
          List.flatten_append, List.flatten_cons, List.flatten_nil, List.append_nil] at hpps
        obtain ⟨h0, h1⟩ := List.append_inj hpps (by simp)
        rcases (by omega : k = 0 ∨ k = 1) with rfl | rfl
        · exact List.map_inj_left.mp h0 j hj'
        · exact List.map_inj_left.mp h1 j hj'
    have hentry := List.map_inj_left.mp hcol i (List.mem_range.mpr hi)
    exact hentry.symm
  · intro h
    have hcol : ∀ k < 2, ∀ j < c.numChunks, c.zsColumn p cols k j =
        (List.range c.degree).map fun i => fp.cell (c.degree * c.counts.offset .partialProducts +
          zsColumnIdx c.numChunks k j * c.degree + i) := by
      intro k hk j hj
      apply List.map_congr_left
      intro i hi
      exact (h k hk j hj i (List.mem_range.mp hi)).symm
    congr 1
    · apply List.map_congr_left
      intro k hk
      exact hcol k (List.mem_range.mp hk) _ (by omega)
    · congr 1
      apply List.map_congr_left
      intro k hk
      apply List.map_congr_left
      intro j hj
      exact hcol k (List.mem_range.mp hk) j (by have := List.mem_range.mp hj; omega)

/-! ### Sizes -/

lemma one_le_degree : 1024 ≤ c.degree := by
  calc 1024 = 2 ^ 10 := rfl
    _ ≤ c.degree := Nat.pow_le_pow_right (by omega) c.ten_le_degreeBits

lemma degree_dvd : 128 ∣ c.degree :=
  (by decide : 128 ∣ 2 ^ 10).trans (pow_dvd_pow 2 c.ten_le_degreeBits)

/-- The block products fill the blocks of 128 exactly. -/
lemma partLen_eq : c.numRoutedWires * c.degree / c.quotientDegreeFactor =
    (c.degree * c.numChunks + 128 - 1) / 128 * 128 := by
  obtain ⟨d, hd⟩ := c.degree_dvd
  have hparts : (c.degree * c.numChunks + 128 - 1) / 128 = d * c.numChunks := by
    rw [hd, Nat.mul_assoc]
    omega
  rw [hparts, ← c.numChunks_mul c.dvd, Nat.mul_right_comm,
    Nat.mul_div_cancel _ c.quotientDegreeFactor_pos, hd]
  ring

lemma partLen_eq_mul : c.numRoutedWires * c.degree / c.quotientDegreeFactor =
    c.degree * c.numChunks := by
  rw [← c.numChunks_mul c.dvd, Nat.mul_right_comm, Nat.mul_div_cancel _ c.quotientDegreeFactor_pos,
    Nat.mul_comm]

lemma scratchLen_eq : c.degree * c.numChallenges * c.numRoutedWires / c.quotientDegreeFactor =
    2 * (c.degree * c.numChunks) := by
  rw [c.two_challenges, ← c.numChunks_mul c.dvd, ← Nat.mul_assoc,
    Nat.mul_div_cancel _ c.quotientDegreeFactor_pos]
  ring

/-- The partial products segment lies between the wires and the quotients. -/
lemma offset_quotients : c.degree * c.counts.offset .quotients =
    c.degree * c.counts.offset .partialProducts + 2 * c.numChunks * c.degree := by
  have h := c.counts_partialProducts
  simp only [PolyCounts.count] at h
  simp only [PolyCounts.offset, h]
  ring

/-- The transformed columns lie before the partial products. -/
lemma ntt_le : c.numConstants * c.degree + 2 * c.numRoutedWires * c.degree ≤
    c.degree * c.counts.offset .partialProducts := by
  have h : c.numConstants + 2 * c.numRoutedWires ≤ c.counts.offset .partialProducts := by
    have := c.routed_le
    simp only [PolyCounts.offset, CommonCircuitData.counts]
    omega
  calc c.numConstants * c.degree + 2 * c.numRoutedWires * c.degree
      = c.degree * (c.numConstants + 2 * c.numRoutedWires) := by ring
    _ ≤ _ := Nat.mul_le_mul_left _ h

lemma offset_quotients_le : c.degree * c.counts.offset .quotients ≤ c.degree * c.counts.numPolys := by
  apply Nat.mul_le_mul_left
  simp only [PolyCounts.offset, PolyCounts.numPolys]
  omega

omit [Field F] in
/-- The transformed columns lie inside the buffer, wherever the truncated offset puts them. -/
lemma ntt_le_len {fp : DeviceBuffer F} (hlen : fp.len = c.degree * c.counts.numPolys) :
    u32 (c.numConstants * c.degree) + 2 * c.numRoutedWires * c.degree ≤ fp.len := by
  have hle := c.ntt_le
  have hquot := c.offset_quotients
  have hmod : u32 (c.numConstants * c.degree) ≤ c.numConstants * c.degree := Nat.mod_le _ _
  have hseg := c.offset_quotients_le
  omega

/-! ### The pipeline -/

/-- With products that fit, `zp` computes the columns of the wires and sigmas that the first kernel
reads, whatever the transform before it left there. -/
lemma zp_spec {ω : F} (hω : IsPrimitiveRoot ω c.degree) (p : PermutationInputs F)
    (cols : PermutationColumns F) {fp fp₁ : DeviceBuffer F} (qv part pp : ℕ → F)
    (hthreads : c.numChunks ≤ maxThreadsPerBlock) (hprod : 2 * (c.degree * c.numChunks) ≤ 2 ^ 31)
    (hread : c.numRoutedWires * c.degree ≤ 2 ^ 32) (hlen : fp.len = c.degree * c.counts.numPolys)
    (hntt : batchNttInPlace (dft ω c.degree) fp c.degreeBits (2 * c.numRoutedWires)
      (u32 (c.numConstants * c.degree)) = .ok fp₁)
    (hwire : ∀ j < c.numRoutedWires, ∀ i < c.degree,
      fp₁.cell (c.degree * c.counts.offset .wires + (j * c.degree + i)) = cols.wire i j)
    (hsigma : ∀ j < c.numRoutedWires, ∀ i < c.degree,
      fp₁.cell (c.numConstants * c.degree + (j * c.degree + i)) = cols.sigma i j) :
    ∃ fp', zp c.partialProductConfig c.counts ω p (c.partialProductScratch qv part pp) fp =
        .ok fp' ∧
      (∀ k < 2, ∀ j < c.numChunks, ∀ i < c.degree,
        fp'.cell (c.degree * c.counts.offset .partialProducts +
          zsColumnIdx c.numChunks k j * c.degree + i) =
            zsEntry c.numChunks (cols.chunkQuotient p c.numChunks c.quotientDegreeFactor k) j i) ∧
      ∀ a, (a < c.degree * c.counts.offset .partialProducts ∨
        c.degree * c.counts.offset .quotients ≤ a) → fp'.cell a = fp.cell a := by
  have hC := c.numChunks_pos c.dvd
  have hn := c.one_le_degree
  have hmul := c.numChunks_mul c.dvd
  have hnC : c.degree ≤ c.degree * c.numChunks := Nat.le_mul_of_pos_right _ hC
  have hR : c.numRoutedWires * 1024 ≤ c.numRoutedWires * c.degree := Nat.mul_le_mul_left _ hn
  obtain ⟨g, hg⟩ : ∃ g, (c.degree * c.numChunks + 128 - 1) / 128 = g := ⟨_, rfl⟩
  have hgN : g * 128 = c.degree * c.numChunks := by rw [← hg, ← c.partLen_eq, c.partLen_eq_mul]
  have hvalid : ValidLaunch 2 c.degree c.numChunks :=
    ⟨by omega, ⟨by omega, by omega⟩, hC, hthreads⟩
  have hvalid' : ValidLaunch 2 g 128 := ⟨by omega, ⟨by omega, by omega⟩, by decide, by decide⟩
  -- the buffers
  have hlenpp : ∀ m : ℕ → F, (c.partialProductScratch qv part m).pp.len =
      2 * (c.degree * c.numChunks) := fun _ => c.scratchLen_eq
  have hlenqv : (c.partialProductScratch qv part pp).qv.len = 2 * (c.degree * c.numChunks) :=
    c.scratchLen_eq
  have hlenpart : (c.partialProductScratch qv part pp).part.len = 2 * g := by
    change (c.degree * c.numChallenges * c.numRoutedWires / c.quotientDegreeFactor + 127) / 128 = _
    rw [c.scratchLen_eq, ← hgN]
    omega
  -- the kernels, one after the other
  obtain ⟨qv₁, hqv₁, -, hqvcell⟩ := wiresPermutationPartialProductsTrans_spec p cols
    (fun a => fp₁.cell (c.degree * c.counts.offset .wires + a))
    (fun a => fp₁.cell (c.numConstants * c.degree + a))
    (c.partialProductScratch qv part pp).qv c.quotientDegreeFactor hvalid (by rw [hlenqv, Nat.mul_assoc]) (by rw [Nat.mul_assoc]; exact hprod)
    (by rw [hmul]; omega) (by rw [hmul]; exact hread) (by rw [hmul]; exact hwire)
    (by rw [hmul]; exact hsigma)
  obtain ⟨part₁, pp₁, hscan, hpartlen, hpplen, hpartcell, hppcell⟩ := scanPart_spec qv₁
    (c.partialProductScratch qv part pp).part (c.partialProductScratch qv part pp).pp
    (f := fun k m => cols.chunkQuotient p c.numChunks c.quotientDegreeFactor k m) hvalid'
    (by rw [hlenpp, Nat.mul_assoc, hgN]) (by rw [hlenpart]) (by rw [Nat.mul_assoc, hgN]; exact hprod)
    (by rw [hgN]; exact hqvcell)
  obtain ⟨part₂, hpart₂, hpartcell₂⟩ := scanPartProduct_spec part₁
    (by rw [hpartlen, hlenpart]) (by omega) hpartcell
  obtain ⟨pp₂, hpp₂, hppcell₂⟩ := mulPartProduct_spec hvalid'
    (by rw [hpplen, hlenpp, Nat.mul_assoc, hgN]) (by rw [Nat.mul_assoc, hgN]; exact hprod)
    hpartcell₂ hppcell
  obtain ⟨fp', hfp', -, hentries, hframe⟩ := matrixTrans_spec pp₂ fp
    (c.degree * c.counts.offset .partialProducts) hvalid
    (by rw [← c.offset_quotients, hlen]; exact c.offset_quotients_le)
    (by rw [Nat.mul_assoc]; exact hprod) (by rw [hgN] at hppcell₂; exact hppcell₂)
  refine ⟨fp', ?_, hentries, by rw [c.offset_quotients]; exact hframe⟩
  have hnttlen := c.ntt_le_len hlen
  have hinv : batchNttInPlace (idft ω c.degree) fp₁ c.degreeBits (2 * c.numRoutedWires)
      (u32 (c.numConstants * c.degree)) = .ok fp := batchNttInPlace_inverse hω hnttlen hntt
  have hchallenges : u32 c.numChallenges = 2 := by rw [c.two_challenges]; rfl
  have hdegree : u32 c.degree = c.degree := u32_of_lt (by omega)
  have hchunks : u32 (c.numRoutedWires / c.quotientDegreeFactor) = c.numChunks :=
    u32_of_lt (by unfold maxThreadsPerBlock CommonCircuitData.numChunks at hthreads; omega)
  have hrouted : u32 (2 * c.numRoutedWires) = 2 * c.numRoutedWires := u32_of_lt (by omega)
  have hparts : u32 g = g := u32_of_lt (by omega)
  have hpow : 2 ^ c.degreeBits = c.degree := rfl
  have hlength : c.numChallenges * (c.degree * c.numChunks) = 2 * (g * 128) := by
    rw [c.two_challenges, hgN]
  simp only [zp, CommonCircuitData.partialProductConfig, hpow, hchallenges, hdegree, hchunks, hrouted,
    hntt, bind, Except.bind, hqv₁, hinv, c.partLen_eq_mul, hg, hparts, hlength, hscan, hpart₂, hpp₂]
  exact hfp'

lemma offset_wires : c.degree * c.counts.offset .wires =
    c.numConstants * c.degree + c.numRoutedWires * c.degree := by
  simp only [PolyCounts.offset, CommonCircuitData.counts]
  ring

/-- When everything fits, the device leaves the columns of the host. -/
lemma zpMatches_of_fit [DecidableEq F] {ω : F} (hω : IsPrimitiveRoot ω c.degree)
    {p : PermutationInputs F} {cols : PermutationColumns F} {fp : DeviceBuffer F}
    (hfit : c.PartialProductsFit) (hden : cols.DenominatorsNeZero p c.degree c.numRoutedWires 2)
    (hfp : c.CoefficientColumns ω cols fp) (qv part pp : ℕ → F) :
    c.ZpMatches ω p cols (c.partialProductScratch qv part pp) fp := by
  obtain ⟨hlen, hsigma, hwire⟩ := hfp
  obtain ⟨fp₁, hntt, -, hcols, -⟩ := batchNttInPlace_spec (dft ω c.degree) fp
    c.degreeBits (c.ntt_le_len hlen)
  rw [u32_of_lt hfit.constants] at hcols
  change ∀ k < 2 * c.numRoutedWires, ∀ i < c.degree,
    fp₁.cell (c.numConstants * c.degree + k * c.degree + i) = _ at hcols
  -- a column of coefficients has been evaluated
  have hvalues : ∀ m < 2 * c.numRoutedWires, ∀ v : ℕ → F,
      (∀ i < c.degree, fp.cell (c.numConstants * c.degree + m * c.degree + i) =
        idft ω c.degree v i) →
      ∀ i < c.degree, fp₁.cell (c.numConstants * c.degree + m * c.degree + i) = v i := by
    intro m hm v hv i hi
    rw [hcols m hm i hi]
    change dft ω c.degree (fun i => fp.cell (c.numConstants * c.degree + m * c.degree + i)) i = _
    rw [dft_congr hv, dft_idft hω _ hi]
  have hcell : ∀ j i, c.degree * c.counts.offset .wires + j * c.degree + i =
      c.numConstants * c.degree + (c.numRoutedWires + j) * c.degree + i := by
    intro j i
    rw [c.offset_wires]
    ring
  obtain ⟨fp', hzp, hentries, hframe⟩ := c.zp_spec hω p cols qv part pp hfit.threads
    hfit.products hfit.routed hlen hntt
    (by
      intro j hj i hi
      rw [← Nat.add_assoc, hcell]
      refine hvalues _ (by omega) (fun i => cols.wire i j) ?_ i hi
      intro i hi
      rw [← hcell]
      exact hwire j hj i hi)
    (by
      intro j hj i hi
      rw [← Nat.add_assoc]
      exact hvalues j (by omega) (fun i => cols.sigma i j) (hsigma j hj) i hi)
  exact ⟨fp', hzp, (c.zsPartialProducts_eq_iff hden).mpr hentries, hframe⟩

end PermutationCircuit

end MegaZK
