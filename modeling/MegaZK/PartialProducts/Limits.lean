import MegaZK.PartialProducts.Refinement

/-! # The sizes for which the partial products agree

Outside of `PartialProductsFit` a launch or a store fails, or some input is read or left in the
wrong place. -/

namespace MegaZK

open Grid Scan Dft

variable {F : Type} [Field F]

/-! ### What a successful run has done -/

omit [Field F] in
lemma bind_eq_ok {α β : Type} {x : Except DeviceError α} {f : α → Except DeviceError β} {r : β} :
    x >>= f = .ok r ↔ ∃ a, x = .ok a ∧ f a = .ok r := by
  cases x with
  | error e => simp [bind, Except.bind]
  | ok a => simp [bind, Except.bind]

/-- The scan of the quotients in `zp`. -/
def zpProducts (cfg : PartialProductConfig) (scratch : PartialProductScratch F)
    (qv : DeviceBuffer F) : Except DeviceError (DeviceBuffer F) := do
  let partLen := cfg.numRoutedWires * cfg.degree / cfg.quotientDegreeFactor
  let partNum := (partLen + 128 - 1) / 128
  let length := cfg.numChallenges * partLen
  let (part, pp) ← scanPart qv scratch.part scratch.pp length (u32 cfg.numChallenges) (u32 partNum) 128
  let part ← scanPartProduct part partNum
  mulPartProduct part pp length (u32 cfg.numChallenges) (u32 partNum) 128

lemma zp_eq_ok {cfg : PartialProductConfig} {layout : PolyCounts} {ω : F} {p : PermutationInputs F}
    {scratch : PartialProductScratch F} {fp fp' : DeviceBuffer F}
    (h : zp cfg layout ω p scratch fp = .ok fp') :
    ∃ fp₁ qv fp₂ pp,
      batchNttInPlace (dft ω (2 ^ cfg.degreeBits)) fp cfg.degreeBits
        (u32 (2 * cfg.numRoutedWires)) (u32 (cfg.numConstants * cfg.degree)) = .ok fp₁ ∧
      wiresPermutationPartialProductsTrans p
        (fun a => fp₁.cell (cfg.degree * layout.offset .wires + a))
        (fun a => fp₁.cell (cfg.numConstants * cfg.degree + a)) scratch.qv
        cfg.quotientDegreeFactor cfg.degree (u32 cfg.numChallenges) (u32 cfg.degree)
        (u32 (cfg.numRoutedWires / cfg.quotientDegreeFactor)) = .ok qv ∧
      batchNttInPlace (idft ω (2 ^ cfg.degreeBits)) fp₁ cfg.degreeBits
        (u32 (2 * cfg.numRoutedWires)) (u32 (cfg.numConstants * cfg.degree)) = .ok fp₂ ∧
      zpProducts cfg scratch qv = .ok pp ∧
      matrixTrans pp fp₂ (cfg.degree * layout.offset .partialProducts) (u32 cfg.numChallenges)
        (u32 cfg.degree) (u32 (cfg.numRoutedWires / cfg.quotientDegreeFactor)) = .ok fp' := by
  obtain ⟨fp₁, hfp₁, h⟩ := bind_eq_ok.mp h
  obtain ⟨qv, hqv, h⟩ := bind_eq_ok.mp h
  obtain ⟨fp₂, hfp₂, h⟩ := bind_eq_ok.mp h
  obtain ⟨⟨part, pp⟩, hscan, h⟩ := bind_eq_ok.mp h
  obtain ⟨part', hpart, h⟩ := bind_eq_ok.mp h
  obtain ⟨pp', hpp, h⟩ := bind_eq_ok.mp h
  refine ⟨fp₁, qv, fp₂, pp', hfp₁, hqv, hfp₂, ?_, h⟩
  exact bind_eq_ok.mpr ⟨(part, pp), hscan, bind_eq_ok.mpr ⟨part', hpart, hpp⟩⟩

omit [Field F] in
lemma launch_eq_ok {gy gx bx : ℕ} {ths : List Thread} (h : launch gy gx bx = .ok ths) :
    ValidLaunch gy gx bx ∧ ths = threads gy gx bx := by
  unfold launch at h
  split_ifs at h with hvalid
  exact ⟨hvalid, (Except.ok.inj h).symm⟩

/-- The first kernel runs only with a valid launch whose products fit. -/
lemma wiresPermutationPartialProductsTrans_eq_ok {p : PermutationInputs F}
    {witness sSigmas : ℕ → F} {qv qv' : DeviceBuffer F} {q n gy gx bx : ℕ}
    (h : wiresPermutationPartialProductsTrans p witness sSigmas qv q n gy gx bx = .ok qv') :
    ValidLaunch gy gx bx ∧ gy * gx * bx ≤ 2 ^ 31 := by
  obtain ⟨ths, hths, hstore⟩ := bind_eq_ok.mp h
  obtain ⟨hvalid, rfl⟩ := launch_eq_ok hths
  refine ⟨hvalid, ?_⟩
  by_contra hlt
  -- the thread with number `2 ^ 31` has a negative index
  obtain ⟨th, hth, hflat⟩ := exists_flat_eq gy gx bx (n := 2 ^ 31) (by omega)
  rw [DeviceBuffer.store_error hth] at hstore
  · cases hstore
  · left
    have hnum : th.y * gx * bx + th.x * bx + th.t = 2 ^ 31 := by
      rw [← hflat, Thread.flat, Nat.add_mul]
    simp only [hnum]
    decide

omit [Field F] in
lemma store_eq_ok {ι : Type} {b b' : DeviceBuffer F} {l : List ι} {dst : ι → ℤ} {val : ι → F}
    (h : b.store l dst val = .ok b') :
    b' = { b with cell := Scatter.scatter l (fun t => (dst t).toNat) val b.cell } := by
  unfold DeviceBuffer.store at h
  split_ifs at h
  exact (Except.ok.inj h).symm

/-- The first kernel reads less than `2 ^ 32` cells behind each pointer. -/
lemma wiresPermutationPartialProductsTrans_congr {p : PermutationInputs F}
    {witness witness' sSigmas sSigmas' : ℕ → F} (hw : ∀ a < 2 ^ 32, witness a = witness' a)
    (hs : ∀ a < 2 ^ 32, sSigmas a = sSigmas' a) (qv : DeviceBuffer F) (q n gy gx bx : ℕ) :
    wiresPermutationPartialProductsTrans p witness sSigmas qv q n gy gx bx =
      wiresPermutationPartialProductsTrans p witness' sSigmas' qv q n gy gx bx := by
  have hu : ∀ x, u32 x < 2 ^ 32 := fun x => Nat.mod_lt x (by decide)
  simp only [wiresPermutationPartialProductsTrans, hw _ (hu _), hs _ (hu _)]

/-- Buffers that differ in one column only differ in that column after the transforms. -/
lemma batchNttInPlace_dft_congr {ω : F} {b b' r r' : DeviceBuffer F} {logN numNtts offset m : ℕ}
    (h : batchNttInPlace (dft ω (2 ^ logN)) b logN numNtts offset = .ok r)
    (h' : batchNttInPlace (dft ω (2 ^ logN)) b' logN numNtts offset = .ok r')
    (halign : 2 ^ logN ∣ offset) (hagree : ∀ a, a / 2 ^ logN ≠ m → b.cell a = b'.cell a) :
    ∀ a, a / 2 ^ logN ≠ m → r.cell a = r'.cell a := by
  have hok : ∀ {b r : DeviceBuffer F},
      batchNttInPlace (dft ω (2 ^ logN)) b logN numNtts offset = .ok r →
        offset + numNtts * 2 ^ logN ≤ b.len := by
    intro b r h
    simp only [batchNttInPlace] at h
    split_ifs at h
    assumption
  obtain ⟨r₁, hr₁, -, hcol, hout⟩ := batchNttInPlace_spec (dft ω (2 ^ logN)) b logN (hok h)
  obtain ⟨r₂, hr₂, -, hcol', hout'⟩ := batchNttInPlace_spec (dft ω (2 ^ logN)) b' logN (hok h')
  obtain rfl : r₁ = r := by simpa [hr₁] using h
  obtain rfl : r₂ = r' := by simpa [hr₂] using h'
  intro a ha
  by_cases hin : offset ≤ a ∧ a < offset + numNtts * 2 ^ logN
  · obtain ⟨k, hk, i, hi, rfl⟩ := exists_column_row (by positivity) hin.1 hin.2
    obtain ⟨o, rfl⟩ := halign
    have hcolumn : ∀ i < 2 ^ logN, (2 ^ logN * o + k * 2 ^ logN + i) / 2 ^ logN = o + k := by
      intro i hi
      rw [Nat.mul_comm k, ← Nat.mul_add, Nat.mul_add_div (by positivity), Nat.div_eq_of_lt hi,
        Nat.add_zero]
    rw [hcol k hk i hi, hcol' k hk i hi]
    refine congrFun (dft_congr ?_) i
    intro i' hi'
    apply hagree
    rw [hcolumn i' hi']
    rwa [hcolumn i hi] at ha
  · rw [hout a (by omega), hout' a (by omega), hagree a ha]

/-- The transposition reaches less than `2 ^ 32` cells. -/
lemma matrixTrans_cell_of_le {pp fp fp' : DeviceBuffer F} {offset gy gx bx a : ℕ}
    (h : matrixTrans pp fp offset gy gx bx = .ok fp') (ha : offset + 2 ^ 32 ≤ a) :
    fp'.cell a = fp.cell a := by
  obtain ⟨ths, -, hstore⟩ := bind_eq_ok.mp h
  rw [store_eq_ok hstore]
  apply Scatter.scatter_of_forall_ne
  intro th _ heq
  have hdst : matrixTransDst gx bx th < 2 ^ 32 := by
    have hu : ∀ x, (u32 x : ℤ) < 2 ^ 32 := by
      intro x
      have := Nat.mod_lt x (by decide : 0 < 2 ^ 32)
      unfold u32
      omega
    unfold matrixTransDst
    split_ifs
    · exact hu _
    · exact hu _
    · exact Int.emod_lt_of_pos _ (by decide)
  omega

namespace CommonCircuitData

variable (c : CommonCircuitData)

/-- The arguments of the permutation in a circuit whose subgroup is generated by `ω`. -/
def permutationInputs (ω : F) (kIs betas gammas : ℕ → F) : PermutationInputs F where
  subgroup := fun i => ω ^ i
  kIs := kIs
  betas := betas
  gammas := gammas

/-- `zp` leaves the columns of the host for all wires, sigmas and challenges without a zero
denominator, and whatever the buffers held before. -/
def ZpMatchesAll [DecidableEq F] (ω : F) (kIs : ℕ → F) : Prop :=
  ∀ (betas gammas : ℕ → F) (cols : PermutationColumns F) (qv part pp : ℕ → F) (fp : DeviceBuffer F),
    cols.DenominatorsNeZero (permutationInputs ω kIs betas gammas) c.degree c.numRoutedWires 2 →
    c.CoefficientColumns ω cols fp →
    c.ZpMatches ω (permutationInputs ω kIs betas gammas) cols (c.partialProductScratch qv part pp) fp

/-- The buffer with the given columns, and `rest` everywhere else. -/
def coefficientBuffer (ω : F) (cols : PermutationColumns F) (rest : ℕ → F) : DeviceBuffer F where
  len := c.degree * c.counts.numPolys
  cell := fun a =>
    let m := a / c.degree
    let i := a % c.degree
    if c.numConstants ≤ m ∧ m < c.numConstants + c.numRoutedWires then
      idft ω c.degree (fun i => cols.sigma i (m - c.numConstants)) i
    else if c.numConstants + c.numRoutedWires ≤ m ∧ m < c.numConstants + 2 * c.numRoutedWires then
      idft ω c.degree (fun i => cols.wire i (m - c.numConstants - c.numRoutedWires)) i
    else rest a

lemma coefficientBuffer_cell (ω : F) (cols : PermutationColumns F) (rest : ℕ → F) {m i : ℕ}
    (hi : i < c.degree) : (c.coefficientBuffer ω cols rest).cell (m * c.degree + i) =
      if c.numConstants ≤ m ∧ m < c.numConstants + c.numRoutedWires then
        idft ω c.degree (fun i => cols.sigma i (m - c.numConstants)) i
      else if c.numConstants + c.numRoutedWires ≤ m ∧ m < c.numConstants + 2 * c.numRoutedWires then
        idft ω c.degree (fun i => cols.wire i (m - c.numConstants - c.numRoutedWires)) i
      else rest (m * c.degree + i) := by
  have hdiv : (m * c.degree + i) / c.degree = m := by
    rw [Nat.mul_comm, Nat.mul_add_div (by omega), Nat.div_eq_of_lt hi, Nat.add_zero]
  have hmod : (m * c.degree + i) % c.degree = i := by
    rw [Nat.mul_comm, Nat.mul_add_mod, Nat.mod_eq_of_lt hi]
  simp only [coefficientBuffer, hdiv, hmod]

lemma coefficientColumns_coefficientBuffer (ω : F) (cols : PermutationColumns F) (rest : ℕ → F) :
    c.CoefficientColumns ω cols (c.coefficientBuffer ω cols rest) := by
  constructor
  · rfl
  · intro j hj i hi
    rw [← Nat.add_mul, c.coefficientBuffer_cell ω cols rest hi, if_pos (by omega),
      Nat.add_sub_cancel_left]
  · intro j hj i hi
    have hcell : c.degree * c.counts.offset .wires + j * c.degree =
        (c.numConstants + c.numRoutedWires + j) * c.degree := by
      simp only [PolyCounts.offset, counts]
      ring
    have hsub : c.numConstants + c.numRoutedWires + j - c.numConstants - c.numRoutedWires = j := by
      omega
    rw [hcell, c.coefficientBuffer_cell ω cols rest hi, if_neg (by omega), if_pos (by omega), hsub]

/-- Columns and challenges for which every factor is one. -/
def trivialColumns : PermutationColumns F where
  wire := fun _ _ => 0
  sigma := fun _ _ => 0

omit c in
lemma trivialColumns_denominatorsNeZero (ω : F) (kIs : ℕ → F) (n r : ℕ) :
    (trivialColumns : PermutationColumns F).DenominatorsNeZero
      (permutationInputs ω kIs (fun _ => 0) (fun _ => 1)) n r 2 := by
  intro k _ i _ j _
  simp [trivialColumns, permutationInputs]

end CommonCircuitData

namespace PermutationCircuit

variable (c : PermutationCircuit)

open CommonCircuitData

/-- A successful run restores the columns before it transposes the products. -/
lemma zp_eq_ok_restored {ω : F} (hω : IsPrimitiveRoot ω c.degree) {p : PermutationInputs F}
    {scratch : PartialProductScratch F} {fp fp' : DeviceBuffer F}
    (hlen : fp.len = c.degree * c.counts.numPolys)
    (h : zp c.partialProductConfig c.counts ω p scratch fp = .ok fp') :
    ∃ fp₁ qv pp,
      batchNttInPlace (dft ω c.degree) fp c.degreeBits (u32 (2 * c.numRoutedWires))
        (u32 (c.numConstants * c.degree)) = .ok fp₁ ∧
      wiresPermutationPartialProductsTrans p
        (fun a => fp₁.cell (c.degree * c.counts.offset .wires + a))
        (fun a => fp₁.cell (c.numConstants * c.degree + a)) scratch.qv c.quotientDegreeFactor
        c.degree (u32 c.numChallenges) (u32 c.degree) (u32 c.numChunks) = .ok qv ∧
      zpProducts c.partialProductConfig scratch qv = .ok pp ∧
      matrixTrans pp fp (c.degree * c.counts.offset .partialProducts) (u32 c.numChallenges)
        (u32 c.degree) (u32 c.numChunks) = .ok fp' := by
  obtain ⟨fp₁, qv, fp₂, pp, hntt, hqv, hinv, hpp, hfp'⟩ := zp_eq_ok h
  have hle : u32 (c.numConstants * c.degree) + u32 (2 * c.numRoutedWires) * c.degree ≤ fp.len := by
    have := c.ntt_le_len hlen
    have hmod : u32 (2 * c.numRoutedWires) ≤ 2 * c.numRoutedWires := Nat.mod_le _ _
    have := Nat.mul_le_mul_right c.degree hmod
    omega
  have hrestored := (batchNttInPlace_inverse hω hle hntt).symm.trans hinv
  obtain rfl : fp = fp₂ := Except.ok.inj hrestored
  exact ⟨fp₁, qv, pp, hntt, hqv, hpp, hfp'⟩

lemma coefficientBuffer_partialProducts (ω : F) (cols : PermutationColumns F) (rest : ℕ → F)
    {m i : ℕ} (hi : i < c.degree) :
    (c.coefficientBuffer ω cols rest).cell
        (c.degree * c.counts.offset .partialProducts + m * c.degree + i) =
      rest (c.degree * c.counts.offset .partialProducts + m * c.degree + i) := by
  have hcol : c.numConstants + 2 * c.numRoutedWires ≤ c.counts.offset .partialProducts := by
    have := c.routed_le
    simp only [PolyCounts.offset, counts]
    omega
  have hcell : c.degree * c.counts.offset .partialProducts + m * c.degree + i =
      (c.counts.offset .partialProducts + m) * c.degree + i := by ring
  rw [hcell, c.coefficientBuffer_cell ω cols rest hi, if_neg (by omega), if_neg (by omega)]

section Matches

variable [DecidableEq F] {ω : F} (hω : IsPrimitiveRoot ω c.degree) {kIs : ℕ → F}

/-- Runs that match leave the same values as the host in the whole segment. -/
lemma cell_eq_of_zsPartialProducts {p : PermutationInputs F} {cols : PermutationColumns F}
    {fp fp' : DeviceBuffer F}
    (h : zsPartialProducts c.toCommonCircuitData p cols = some (c.segmentColumns fp .partialProducts))
    (h' : zsPartialProducts c.toCommonCircuitData p cols =
      some (c.segmentColumns fp' .partialProducts)) {m i : ℕ} (hm : m < c.numChunks * 2)
    (hi : i < c.degree) :
    fp.cell (c.degree * c.counts.offset .partialProducts + m * c.degree + i) =
      fp'.cell (c.degree * c.counts.offset .partialProducts + m * c.degree + i) := by
  have heq := Option.some_inj.mp (h.symm.trans h')
  rw [segmentColumns, segmentColumns, c.counts_partialProducts] at heq
  have hcol := List.map_inj_left.mp heq m (List.mem_range.mpr hm)
  exact List.map_inj_left.mp hcol i (List.mem_range.mpr hi)

include hω

/-- More than `2 ^ 32` cells of products: the last one is never written. -/
lemma products_le_of_matchesAll (h : c.ZpMatchesAll ω kIs) : 2 * (c.degree * c.numChunks) ≤ 2 ^ 32 := by
  by_contra hlt
  have hC := c.numChunks_pos c.dvd
  have hn := c.one_le_degree
  let last := c.degree * c.counts.offset .partialProducts + (c.numChunks * 2 - 1) * c.degree +
    (c.degree - 1)
  have hlast : c.degree * c.counts.offset .partialProducts + 2 ^ 32 ≤ last := by
    have : (c.numChunks * 2 - 1) * c.degree + c.degree = 2 * (c.degree * c.numChunks) := by
      rw [← Nat.succ_mul, Nat.succ_eq_add_one, Nat.sub_add_cancel (by omega)]
      ring
    omega
  have hval : ∀ x : F, ∃ fp', zsPartialProducts c.toCommonCircuitData
      (permutationInputs ω kIs (fun _ => 0) (fun _ => 1)) trivialColumns =
        some (c.segmentColumns fp' .partialProducts) ∧ fp'.cell last = x := by
    intro x
    obtain ⟨fp', hzp, hhost, -⟩ := h (fun _ => 0) (fun _ => 1) trivialColumns 0 0 0
      (c.coefficientBuffer ω trivialColumns fun _ => x)
      (trivialColumns_denominatorsNeZero ω kIs _ _)
      (c.coefficientColumns_coefficientBuffer ω _ _)
    obtain ⟨-, -, pp, -, -, -, hpp⟩ := c.zp_eq_ok_restored hω rfl hzp
    refine ⟨fp', hhost, ?_⟩
    rw [matrixTrans_cell_of_le hpp hlast]
    exact c.coefficientBuffer_partialProducts ω _ _ (by omega)
  obtain ⟨fp₀, hhost₀, hcell₀⟩ := hval 0
  obtain ⟨fp₁, hhost₁, hcell₁⟩ := hval 1
  have heq := c.cell_eq_of_zsPartialProducts hhost₀ hhost₁ (m := c.numChunks * 2 - 1)
    (i := c.degree - 1) (by omega) (by omega)
  exact zero_ne_one (hcell₀.symm.trans (heq.trans hcell₁))

/-- The launch of the first kernel and its indices. -/
lemma threads_and_products_of_matchesAll (h : c.ZpMatchesAll ω kIs) :
    c.numChunks ≤ maxThreadsPerBlock ∧ 2 * (c.degree * c.numChunks) ≤ 2 ^ 31 := by
  have hle := c.products_le_of_matchesAll hω h
  have hC := c.numChunks_pos c.dvd
  have hn := c.one_le_degree
  have hnC : c.degree ≤ c.degree * c.numChunks := Nat.le_mul_of_pos_right _ hC
  have hCn : c.numChunks ≤ c.degree * c.numChunks := Nat.le_mul_of_pos_left _ (by omega)
  obtain ⟨fp', hzp, -, -⟩ := h (fun _ => 0) (fun _ => 1) trivialColumns 0 0 0
    (c.coefficientBuffer ω trivialColumns fun _ => 0) (trivialColumns_denominatorsNeZero ω kIs _ _)
    (c.coefficientColumns_coefficientBuffer ω _ _)
  obtain ⟨fp₁, qv, -, -, hqv, -, -⟩ := c.zp_eq_ok_restored hω rfl hzp
  obtain ⟨hvalid, hfits⟩ := wiresPermutationPartialProductsTrans_eq_ok hqv
  have hchallenges : u32 c.numChallenges = 2 := by
    rw [c.two_challenges]
    rfl
  rw [hchallenges, u32_of_lt (by omega : c.degree < 2 ^ 32),
    u32_of_lt (by omega : c.numChunks < 2 ^ 32)] at hvalid hfits
  exact ⟨hvalid.2.2.2, by rwa [← Nat.mul_assoc]⟩

omit [DecidableEq F] in
/-- Buffers that differ only in a column of the sigmas that the first kernel cannot reach end with
the same partial products. -/
lemma zp_cell_eq_of_unread {p : PermutationInputs F} {scratch : PartialProductScratch F}
    {fp₁ fp₂ r₁ r₂ : DeviceBuffer F} {j : ℕ} (hj : j < c.numRoutedWires) (hj' : 2 ^ 32 ≤ j * c.degree)
    (hlen₁ : fp₁.len = c.degree * c.counts.numPolys) (hlen₂ : fp₂.len = c.degree * c.counts.numPolys)
    (hagree : ∀ a, a / c.degree ≠ c.numConstants + j → fp₁.cell a = fp₂.cell a)
    (h₁ : zp c.partialProductConfig c.counts ω p scratch fp₁ = .ok r₁)
    (h₂ : zp c.partialProductConfig c.counts ω p scratch fp₂ = .ok r₂) {a : ℕ}
    (ha : fp₁.cell a = fp₂.cell a) : r₁.cell a = r₂.cell a := by
  have hn := c.one_le_degree
  have halign : c.degree ∣ u32 (c.numConstants * c.degree) := by
    have hpow : c.degree ∣ 2 ^ 32 := pow_dvd_pow 2 (by have := c.lde_le; omega)
    exact (Nat.dvd_mod_iff hpow).mpr (Dvd.intro_left _ rfl)
  obtain ⟨v₁, qv₁, pp₁, hntt₁, hqv₁, hpp₁, htrans₁⟩ := c.zp_eq_ok_restored hω hlen₁ h₁
  obtain ⟨v₂, qv₂, pp₂, hntt₂, hqv₂, hpp₂, htrans₂⟩ := c.zp_eq_ok_restored hω hlen₂ h₂
  have hvalues := batchNttInPlace_dft_congr hntt₁ hntt₂ halign hagree
  have hwire : ∀ a < 2 ^ 32, v₁.cell (c.degree * c.counts.offset .wires + a) =
      v₂.cell (c.degree * c.counts.offset .wires + a) := by
    intro a _
    apply hvalues
    change (c.degree * (c.numConstants + c.numRoutedWires) + a) / c.degree ≠ _
    rw [Nat.mul_add_div (by omega)]
    exact ((Nat.add_lt_add_left hj c.numConstants).trans_le (Nat.le_add_right _ _)).ne'
  have hsigma : ∀ a < 2 ^ 32, v₁.cell (c.numConstants * c.degree + a) =
      v₂.cell (c.numConstants * c.degree + a) := by
    intro a ha
    apply hvalues
    change (c.numConstants * c.degree + a) / c.degree ≠ _
    have hlt : a / c.degree < j := Nat.div_lt_of_lt_mul (by rw [Nat.mul_comm]; omega)
    rw [Nat.mul_comm, Nat.mul_add_div (by omega)]
    intro heq
    exact hlt.ne (Nat.add_left_cancel heq)
  rw [wiresPermutationPartialProductsTrans_congr hwire hsigma, hqv₂] at hqv₁
  obtain rfl := Except.ok.inj hqv₁
  rw [hpp₁] at hpp₂
  obtain rfl := Except.ok.inj hpp₂
  obtain ⟨ths₁, hths₁, hstore₁⟩ := bind_eq_ok.mp htrans₁
  obtain ⟨ths₂, hths₂, hstore₂⟩ := bind_eq_ok.mp htrans₂
  rw [hths₁] at hths₂
  obtain rfl := Except.ok.inj hths₂
  rw [store_eq_ok hstore₁, store_eq_ok hstore₂]
  exact Scatter.scatter_congr_at ha

end Matches

/-! ### Columns that the kernels get wrong -/

/-- The columns of the identity permutation, with one entry multiplied by `x`. -/
def shiftedColumns (ω : F) (kIs : ℕ → F) (col : ℕ) (x : F) : PermutationColumns F where
  wire := fun _ _ => 0
  sigma := fun i j => kIs j * (ω ^ i * if i = 0 ∧ j = col then x else 1)

section Shifted

variable {ω : F} {kIs : ℕ → F} {col : ℕ} {x : F}

lemma shiftedColumns_denominatorsNeZero (col : ℕ) (hω : IsPrimitiveRoot ω c.degree)
    (hk : ∀ j < c.numRoutedWires, kIs j ≠ 0) (hx : x ≠ 0) :
    (shiftedColumns ω kIs col x).DenominatorsNeZero
      (permutationInputs ω kIs (fun _ => 1) (fun _ => 0)) c.degree c.numRoutedWires 2 := by
  have hω0 : ω ≠ 0 := hω.ne_zero (by have := c.one_le_degree; omega)
  intro k _ i _ j hj
  simp only [shiftedColumns, permutationInputs, zero_add, one_mul, add_zero]
  refine mul_ne_zero (hk j hj) (mul_ne_zero (pow_ne_zero i hω0) ?_)
  split_ifs
  · exact hx
  · exact one_ne_zero

/-- All factors are one, except for the one that was multiplied. -/
lemma shiftedColumns_quotient (hω0 : ω ≠ 0) {i j : ℕ} (hk : kIs j ≠ 0) :
    (shiftedColumns ω kIs col x).quotient (permutationInputs ω kIs (fun _ => 1) (fun _ => 0)) 0 i j =
      if i = 0 ∧ j = col then x⁻¹ else 1 := by
  have hs : kIs j * ω ^ i ≠ 0 := mul_ne_zero hk (pow_ne_zero i hω0)
  simp only [PermutationColumns.quotient, PermutationInputs.quotient, shiftedColumns,
    permutationInputs, zero_add, one_mul, add_zero, ← mul_assoc]
  rw [mul_inv, ← mul_assoc, mul_inv_cancel₀ hs, one_mul]
  split_ifs <;> simp

/-- The product of the chunks up to the one with the multiplied entry. -/
lemma shiftedColumns_runningProd (hω : IsPrimitiveRoot ω c.degree)
    (hk : ∀ j < c.numRoutedWires, kIs j ≠ 0) (hcol : col < c.numRoutedWires) :
    runningProd ((shiftedColumns ω kIs col x).chunkQuotient
      (permutationInputs ω kIs (fun _ => 1) (fun _ => 0)) c.numChunks c.quotientDegreeFactor 0)
        (col / c.quotientDegreeFactor + 1) = x⁻¹ := by
  have hω0 : ω ≠ 0 := hω.ne_zero (by have := c.one_le_degree; omega)
  have hq := c.quotientDegreeFactor_pos
  have hmul := c.numChunks_mul c.dvd
  have hchunk : col / c.quotientDegreeFactor < c.numChunks :=
    Nat.div_lt_of_lt_mul (by rw [Nat.mul_comm, hmul]; exact hcol)
  have hfactor : ∀ m < c.numChunks, ∀ i < c.quotientDegreeFactor,
      (shiftedColumns ω kIs col x).quotient (permutationInputs ω kIs (fun _ => 1) (fun _ => 0)) 0
        (m / c.numChunks) (m % c.numChunks * c.quotientDegreeFactor + i) =
          if m = col / c.quotientDegreeFactor ∧ i = col % c.quotientDegreeFactor then x⁻¹ else 1 := by
    intro m hm i hi
    have hlt : m * c.quotientDegreeFactor + i < c.numRoutedWires := by
      calc m * c.quotientDegreeFactor + i < (m + 1) * c.quotientDegreeFactor := by
            rw [Nat.succ_mul]; omega
        _ ≤ c.numChunks * c.quotientDegreeFactor := Nat.mul_le_mul_right _ hm
        _ = c.numRoutedWires := hmul
    rw [Nat.div_eq_of_lt hm, Nat.mod_eq_of_lt hm, shiftedColumns_quotient hω0 (hk _ hlt)]
    congr 1
    rw [eq_self_iff_true, true_and, eq_iff_iff]
    constructor
    · rintro rfl
      rw [Nat.mul_comm, Nat.mul_add_div hq, Nat.div_eq_of_lt hi, Nat.mul_add_mod,
        Nat.mod_eq_of_lt hi]
      simp
    · rintro ⟨rfl, rfl⟩
      exact Nat.div_add_mod' col _
  rw [runningProd_single (i := col / c.quotientDegreeFactor) (Nat.lt_succ_self _)]
  · refine (runningProd_single (Nat.mod_lt col hq) ?_).trans ?_
    · intro i hi hne
      rw [hfactor _ hchunk i hi, if_neg (by simp [hne])]
    · rw [hfactor _ hchunk _ (Nat.mod_lt col hq), if_pos ⟨rfl, rfl⟩]
  · intro m hm hne
    apply runningProd_one
    intro i hi
    rw [hfactor m (by omega) i hi, if_neg (by simp [hne])]

lemma coefficientBuffer_shiftedColumns {y : F} {a : ℕ} (ha : a / c.degree ≠ c.numConstants + col) :
    (c.coefficientBuffer ω (shiftedColumns ω kIs col x) fun _ => 0).cell a =
      (c.coefficientBuffer ω (shiftedColumns ω kIs col y) fun _ => 0).cell a := by
  simp only [coefficientBuffer]
  generalize a / c.degree = m at ha ⊢
  split_ifs with hsigma
  · have hne : m - c.numConstants ≠ col := by omega
    simp only [shiftedColumns, hne, and_false, if_false]
  · rfl
  · rfl

/-- Wires beyond the reach of a 32-bit index: the entry of such a wire does not matter to the
device, and it does to the host. -/
lemma routed_le_of_matchesAll [DecidableEq F] (hω : IsPrimitiveRoot ω c.degree)
    (hk : ∀ j < c.numRoutedWires, kIs j ≠ 0) (h : c.ZpMatchesAll ω kIs) :
    c.numRoutedWires * c.degree ≤ 2 ^ 32 := by
  by_contra hlt
  have hn := c.one_le_degree
  have hω0 : ω ≠ 0 := hω.ne_zero (by omega)
  have hq := c.quotientDegreeFactor_pos
  have hC := c.numChunks_pos c.dvd
  obtain ⟨col, hcol⟩ : c.degree ∣ 2 ^ 32 := pow_dvd_pow 2 (by have := c.lde_le; omega)
  have hcolR : col < c.numRoutedWires := by
    rw [hcol, Nat.mul_comm] at hlt
    exact Nat.lt_of_mul_lt_mul_left (not_le.mp hlt)
  have hchunk : col / c.quotientDegreeFactor < c.numChunks :=
    Nat.div_lt_of_lt_mul (by rw [Nat.mul_comm, c.numChunks_mul c.dvd]; exact hcolR)
  -- the column and the row that hold the product up to the chunk of the wire
  obtain ⟨j, hj, i, hi, hentry⟩ : ∃ j < c.numChunks, ∃ i < c.degree, ∀ f : ℕ → F,
      zsEntry c.numChunks f j i = runningProd f (col / c.quotientDegreeFactor + 1) := by
    refine ⟨_, hchunk, ?_⟩
    by_cases hlast : col / c.quotientDegreeFactor = c.numChunks - 1
    · refine ⟨1, by omega, ?_⟩
      intro f
      rw [zsEntry, if_pos hlast, hlast, Nat.one_mul, Nat.sub_add_cancel hC]
    · refine ⟨0, by omega, ?_⟩
      intro f
      rw [zsEntry, if_neg hlast, Nat.zero_mul, Nat.zero_add]
  have hrun : ∀ x : F, x ≠ 0 → ∃ fp',
      zp c.partialProductConfig c.counts ω (permutationInputs ω kIs (fun _ => 1) (fun _ => 0))
        (c.partialProductScratch 0 0 0)
        (c.coefficientBuffer ω (shiftedColumns ω kIs col x) fun _ => 0) = .ok fp' ∧
      fp'.cell (c.degree * c.counts.offset .partialProducts + zsColumnIdx c.numChunks 0 j * c.degree
        + i) = x⁻¹ := by
    intro x hx
    have hden := c.shiftedColumns_denominatorsNeZero col hω hk hx
    obtain ⟨fp', hzp, hhost, -⟩ := h (fun _ => 1) (fun _ => 0) (shiftedColumns ω kIs col x) 0 0 0 _ hden
      (c.coefficientColumns_coefficientBuffer ω _ fun _ => 0)
    refine ⟨fp', hzp, ?_⟩
    rw [(c.zsPartialProducts_eq_iff hden).mp hhost 0 (by omega) j hj i hi, hentry,
      c.shiftedColumns_runningProd hω hk hcolR]
  obtain ⟨fp₁, hzp₁, hcell₁⟩ := hrun 1 one_ne_zero
  obtain ⟨fp₂, hzp₂, hcell₂⟩ := hrun ω hω0
  have heq := c.zp_cell_eq_of_unread hω hcolR (by rw [hcol, Nat.mul_comm]) rfl rfl
    (fun a ha => c.coefficientBuffer_shiftedColumns ha) hzp₁ hzp₂
    (a := c.degree * c.counts.offset .partialProducts + zsColumnIdx c.numChunks 0 j * c.degree + i)
    (by rw [c.coefficientBuffer_partialProducts ω _ _ hi, c.coefficientBuffer_partialProducts ω _ _ hi])
  rw [hcell₁, hcell₂, inv_one] at heq
  have hω1 : ω = 1 := inv_eq_one.mp heq.symm
  exact hω.ne_one (by omega) hω1

end Shifted

/-- Columns whose factors are all one, with a last wire that has the coefficients `-1, -1, 0, …`. -/
def wrappedColumns (ω : F) (last : ℕ) : PermutationColumns F where
  wire := fun i j => if j = last then -1 - ω ^ i else 0
  sigma := fun _ _ => 0

section Wrapped

variable {ω : F} (hω : IsPrimitiveRoot ω c.degree) {kIs : ℕ → F} {last : ℕ}

include hω

lemma wrappedColumns_denominatorsNeZero (kIs : ℕ → F) (last : ℕ) :
    (wrappedColumns ω last).DenominatorsNeZero
      (permutationInputs ω kIs (fun _ => 0) (fun _ => 1)) c.degree c.numRoutedWires 2 := by
  have hω0 : ω ≠ 0 := hω.ne_zero (by have := c.one_le_degree; omega)
  intro k _ i _ j _
  simp only [wrappedColumns, permutationInputs, zero_mul, add_zero]
  split_ifs
  · have hval : -1 - ω ^ i + 1 = -ω ^ i := by ring
    rw [hval]
    exact neg_ne_zero.mpr (pow_ne_zero i hω0)
  · simp

/-- The host only multiplies ones. -/
lemma wrappedColumns_runningProd {n : ℕ} (hn : n ≤ c.numChunks) :
    runningProd ((wrappedColumns ω last).chunkQuotient
      (permutationInputs ω kIs (fun _ => 0) (fun _ => 1)) c.numChunks c.quotientDegreeFactor 0) n =
        1 := by
  have hden := c.wrappedColumns_denominatorsNeZero hω kIs last
  have hmul := c.numChunks_mul c.dvd
  apply runningProd_one
  intro m hm
  apply runningProd_one
  intro i hi
  have hlt : m * c.quotientDegreeFactor + i < c.numRoutedWires := by
    calc m * c.quotientDegreeFactor + i < (m + 1) * c.quotientDegreeFactor := by
          rw [Nat.succ_mul]; omega
      _ ≤ c.numChunks * c.quotientDegreeFactor := Nat.mul_le_mul_right _ (by omega)
      _ = c.numRoutedWires := hmul
  rw [Nat.div_eq_of_lt (by omega), Nat.mod_eq_of_lt (by omega)]
  have hne := hden 0 (by omega) 0 (by have := c.one_le_degree; omega) _ hlt
  simp only [PermutationColumns.quotient, PermutationInputs.quotient, permutationInputs, zero_mul,
    add_zero] at hne ⊢
  exact mul_inv_cancel₀ hne

/-- The first coefficient of the last wire. -/
lemma idft_wrappedColumns :
    idft ω c.degree (fun i => (wrappedColumns ω last).wire i last) 0 = -1 := by
  have hn := c.one_le_degree
  have hdft : ∀ i < c.degree, (wrappedColumns ω last).wire i last =
      dft ω c.degree (fun k => if k < 2 then -1 else 0) i := by
    intro i _
    obtain ⟨n, hn'⟩ := Nat.exists_eq_add_of_le (by omega : 2 ≤ c.degree)
    have htail : ∑ k ∈ Finset.range n, (if 2 + k < 2 then (-1 : F) else 0) * ω ^ (i * (2 + k)) = 0 :=
      Finset.sum_eq_zero (fun k _ => by rw [if_neg (by omega), zero_mul])
    rw [hn', dft, Finset.sum_range_add, htail, add_zero]
    simp [wrappedColumns, Finset.sum_range_succ]
    ring
  rw [idft_congr hdft, idft_dft hω _ (by omega)]
  simp

/-- Constants beyond the reach of a 32-bit offset: the last wire is read as coefficients, and a
denominator of the device is zero. -/
lemma constants_lt_of_matchesAll [DecidableEq F] (h : c.ZpMatchesAll ω kIs)
    (hrouted : c.numRoutedWires * c.degree ≤ 2 ^ 32) : c.numConstants * c.degree < 2 ^ 32 := by
  by_contra hlt
  obtain ⟨hthreads, hproducts⟩ := c.threads_and_products_of_matchesAll hω h
  have hn := c.one_le_degree
  have hC := c.numChunks_pos c.dvd
  have hden := c.wrappedColumns_denominatorsNeZero hω kIs (c.numRoutedWires - 1)
  let fp := c.coefficientBuffer ω (wrappedColumns ω (c.numRoutedWires - 1)) fun _ => 0
  have hfp := c.coefficientColumns_coefficientBuffer ω (wrappedColumns ω (c.numRoutedWires - 1))
    fun _ => 0
  obtain ⟨fp₁, hntt, -, -, hout⟩ := batchNttInPlace_spec (dft ω c.degree) fp
    c.degreeBits (c.ntt_le_len rfl)
  -- what the first kernel reads
  let read : PermutationColumns F :=
    { wire := fun i j => fp₁.cell (c.degree * c.counts.offset .wires + (j * c.degree + i))
      sigma := fun i j => fp₁.cell (c.numConstants * c.degree + (j * c.degree + i)) }
  obtain ⟨fp', hzp, hentries, -⟩ := c.zp_spec hω
    (permutationInputs ω kIs (fun _ => 0) (fun _ => 1)) read 0 0 0 hthreads hproducts hrouted rfl hntt
    (fun _ _ _ _ => rfl) (fun _ _ _ _ => rfl)
  obtain ⟨fp'', hzp', hhost, -⟩ := h (fun _ => 0) (fun _ => 1) _ 0 0 0 fp hden hfp
  obtain rfl : fp' = fp'' := Except.ok.inj (hzp.symm.trans hzp')
  have hdevice := hentries 0 (by omega) (c.numChunks - 1) (by omega) 1 (by omega)
  rw [(c.zsPartialProducts_eq_iff hden).mp hhost 0 (by omega) (c.numChunks - 1) (by omega) 1
    (by omega), zsEntry, if_pos rfl, zsEntry, if_pos rfl, Nat.one_mul,
    c.wrappedColumns_runningProd hω le_rfl] at hdevice
  have hq := c.quotientDegreeFactor_pos
  have hR : 0 < c.numRoutedWires := by have := c.four_le_routed; omega
  have hunread : read.wire 0 (c.numRoutedWires - 1) = -1 := by
    have hoff := c.offset_wires
    have hsucc : (c.numRoutedWires - 1) * c.degree + c.degree = c.numRoutedWires * c.degree := by
      rw [← Nat.succ_mul, Nat.succ_eq_add_one, Nat.sub_add_cancel hR]
    have hwrap : u32 (c.numConstants * c.degree) + c.degree ≤ c.numConstants * c.degree := by
      have hdiv := Nat.div_add_mod (c.numConstants * c.degree) (2 ^ 32)
      have hpos : 1 ≤ c.numConstants * c.degree / 2 ^ 32 :=
        (Nat.one_le_div_iff (by decide)).mpr (by omega)
      have hle : c.degree ≤ 2 ^ 32 := Nat.pow_le_pow_right (by omega) (by have := c.lde_le; omega)
      unfold u32
      omega
    change fp₁.cell _ = -1
    rw [hout]
    · rw [← Nat.add_assoc]
      exact (hfp.wire _ (by omega) 0 (by omega)).trans (c.idft_wrappedColumns hω)
    · right
      change u32 (c.numConstants * c.degree) + 2 * c.numRoutedWires * c.degree ≤ _
      rw [Nat.mul_assoc]
      omega
  have hzero : runningProd (read.chunkQuotient (permutationInputs ω kIs (fun _ => 0) (fun _ => 1))
      c.numChunks c.quotientDegreeFactor 0) c.numChunks = 0 := by
    refine runningProd_eq_zero (i := c.numChunks - 1) (by omega) ?_
    refine runningProd_eq_zero (i := c.quotientDegreeFactor - 1) (by omega) ?_
    have hlast : (c.numChunks - 1) * c.quotientDegreeFactor + (c.quotientDegreeFactor - 1) =
        c.numRoutedWires - 1 := by
      have hmul := c.numChunks_mul c.dvd
      have : (c.numChunks - 1) * c.quotientDegreeFactor + c.quotientDegreeFactor =
          c.numChunks * c.quotientDegreeFactor := by
        rw [← Nat.succ_mul, Nat.succ_eq_add_one, Nat.sub_add_cancel hC]
      omega
    rw [Nat.div_eq_of_lt (by omega), Nat.mod_eq_of_lt (by omega), hlast]
    simp only [PermutationColumns.quotient, PermutationInputs.quotient, permutationInputs, hunread,
      zero_mul, add_zero, neg_add_cancel, inv_zero]
  rw [hzero] at hdevice
  exact one_ne_zero hdevice

end Wrapped

/-- The standard configuration with the given numbers of wires, in 1024 rows. -/
def ofWires (numWires numRoutedWires : ℕ) (hdvd : 8 ∣ numRoutedWires) (hle : numRoutedWires ≤ numWires)
    (hfour : 4 ≤ numRoutedWires) : PermutationCircuit where
  numWires := numWires
  numRoutedWires := numRoutedWires
  numChallenges := 2
  maxQuotientDegreeFactor := 8
  zeroKnowledge := false
  rateBits := 3
  capHeight := 4
  numQueryRounds := 28
  degreeBits := 10
  reductionArityBits := [4]
  numConstants := 4
  numPublicInputs := 4
  numLookupPolys := 0
  arities_le := by decide
  quotientDegree_pow := standardQuotientDegree
  four_le_routed := hfour
  lde_le := by decide
  two_challenges := rfl
  dvd := hdvd
  ten_le_degreeBits := by decide
  routed_le := hle

instance : Fact (Nat.Prime 12289) := ⟨by norm_num⟩

lemma isPrimitiveRoot_10302 : IsPrimitiveRoot (10302 : ZMod 12289) (2 ^ 10) := by
  rw [IsPrimitiveRoot.iff_orderOf]
  exact orderOf_eq_prime_pow (by decide +kernel) (by decide +kernel)

end PermutationCircuit

end MegaZK
