import MegaZK.Fri.Extension
import MegaZK.Query.Offsets

/-! # Openings

`OpeningsService`: the kernels that evaluate all polynomials at `zeta`, and the first ones of the
partial products at the next point, by tiles that a second kernel puts together. -/

namespace MegaZK

open Grid Horner Scatter

variable {F : Type} [CommRing F]

/-! ### The kernels -/

/-- The loop of `open_polys_new` over the coefficients of a tile, from the last one down. -/
def openLoop (coeffs : ℕ → F) (zeta : ExtensionField F) : ℕ → ExtensionField F → ExtensionField F
  | 0, acc => acc
  | n + 1, acc =>
    let acc := mulExt acc zeta
    openLoop coeffs zeta n ⟨acc.re + coeffs n, acc.im⟩

/-- The loop of `open_polys_reduce` over the tiles. -/
def openReduceLoop (tiles : ℕ → ExtensionField F) (zetaPow : ExtensionField F) :
    ℕ → ExtensionField F → ExtensionField F
  | 0, acc => acc
  | n + 1, acc =>
    let acc := mulExt acc zetaPow
    openReduceLoop tiles zetaPow n ⟨acc.re + (tiles n).re, acc.im + (tiles n).im⟩

/-- Every thread stores the two words of an extension element. -/
def DeviceBuffer.storePairs (b : DeviceBuffer F) (ids : List ℕ) (acc : ℕ → ExtensionField F) :
    Option (DeviceBuffer F) :=
  b.storeAll (ids.flatMap fun gId =>
    [(u32 (2 * gId), (acc gId).re), (u32 (2 * gId + 1), (acc gId).im)])

/-- `OpeningConfig`. -/
structure OpeningConfig where
  degreeBits : ℕ
  numPolys : ℕ
  numNext : ℕ
  nextStart : ℕ

/-- `open_polys_new`: thread `64 * p + s` evaluates tile `s` of polynomial `p`; the polynomials from
`num_polys` on are those of the next point. -/
def openPolysNew (polys : ℕ → F) (zeta g : ExtensionField F) (buffer : DeviceBuffer F)
    (blocks degreeBits numPolys numNext nextStart : ℕ) : Option (DeviceBuffer F) := do
  let ids ← gridIds blocks tileO (u32 (u32 (numPolys + numNext) * tileO))
  let degree ← shlUnsigned degreeBits
  let segLen := degree / tileO
  buffer.storePairs ids fun gId =>
    let pId := gId / tileO
    let segId := gId % tileO
    if pId < numPolys then
      openLoop (fun j => polys (u32 (pId * degree) + u32 (segId * segLen) + j)) zeta segLen 0
    else
      openLoop (fun j => polys
        (u32 (u32 (pId + nextStart + 2 ^ 32 - numPolys) * degree) + u32 (segId * segLen) + j))
        (mulExt zeta g) segLen 0

/-- `open_polys_reduce`; the powers of its point are squares by `mul_ext`. -/
def openPolysReduce (buffer : DeviceBuffer F) (zeta g : ExtensionField F)
    (openings : DeviceBuffer F) (blocks degreeBits numPolys numNext : ℕ) :
    Option (DeviceBuffer F) := do
  let ids ← gridIds blocks 32 (u32 (numPolys + numNext))
  let degree ← shlUnsigned degreeBits
  let segLen := degree / tileO
  openings.storePairs ids fun gId =>
    let zetaPow := squareWhile segLen 32 1 (if gId < numPolys then zeta else mulExt zeta g)
    let start := u32 (2 * gId * tileO)
    openReduceLoop (fun j => ⟨buffer.cell (start + j * 2), buffer.cell (start + (j * 2 + 1))⟩)
      zetaPow tileO 0

/-- `OpeningsService::compute`. -/
def OpeningConfig.compute (cfg : OpeningConfig) (fpInputs : ℕ → F) (zeta g : ExtensionField F)
    (reduction device : DeviceBuffer F) : Option (DeviceBuffer F) := do
  let total := u32 (cfg.numPolys + cfg.numNext)
  let reduction ← openPolysNew fpInputs zeta g reduction total (u32 cfg.degreeBits)
    (u32 cfg.numPolys) (u32 cfg.numNext) (u32 cfg.nextStart)
  openPolysReduce reduction zeta g device (u32 (total + 32 - 1) / 32) (u32 cfg.degreeBits)
    (u32 cfg.numPolys) (u32 cfg.numNext)

/-! ### Their loops -/

lemma openLoop_eq (coeffs : ℕ → F) (zeta : ExtensionField F) (n : ℕ) (acc : ExtensionField F) :
    openLoop coeffs zeta n acc = hornerFrom (fun j => .C (coeffs j)) zeta n acc := by
  induction n generalizing acc with
  | zero => rfl
  | succ n ih =>
    rw [openLoop, hornerFrom, ih, mulExt_eq]
    congr 1
    ext <;> simp

lemma openReduceLoop_eq (tiles : ℕ → ExtensionField F) (zetaPow : ExtensionField F) (n : ℕ)
    (acc : ExtensionField F) :
    openReduceLoop tiles zetaPow n acc = hornerFrom tiles zetaPow n acc := by
  induction n generalizing acc with
  | zero => rfl
  | succ n ih =>
    rw [openReduceLoop, hornerFrom, ih, mulExt_eq]
    congr 1

section Pairs

variable {ids : List ℕ} {acc : ℕ → ExtensionField F} {writes : List (ℕ × F)} {len : ℕ}

lemma writes_lt (hmem : ∀ w ∈ writes,
      ∃ gId ∈ ids, w = (2 * gId, (acc gId).re) ∨ w = (2 * gId + 1, (acc gId).im))
    (hlen : ∀ gId ∈ ids, 2 * gId + 1 < len) : ∀ w ∈ writes, w.1 < len := by
  intro w hw
  obtain ⟨gId, hgId, rfl | rfl⟩ := hmem w hw
  · have := hlen gId hgId
    dsimp only
    omega
  · exact hlen gId hgId

/-- An address has one parity and one thread. -/
lemma writes_agree (hmem : ∀ w ∈ writes,
      ∃ gId ∈ ids, w = (2 * gId, (acc gId).re) ∨ w = (2 * gId + 1, (acc gId).im)) :
    ∀ w ∈ writes, ∀ w' ∈ writes, w'.1 = w.1 → w'.2 = w.2 := by
  intro w hw w' hw' heq
  obtain ⟨gId, -, rfl | rfl⟩ := hmem w hw <;> obtain ⟨gId', -, rfl | rfl⟩ := hmem w' hw' <;>
    dsimp only at heq ⊢
  · obtain rfl : gId' = gId := by omega
    rfl
  · omega
  · omega
  · obtain rfl : gId' = gId := by omega
    rfl

end Pairs

lemma DeviceBuffer.storePairs_spec (b : DeviceBuffer F) (ids : List ℕ)
    (acc : ℕ → ExtensionField F) (hlen : ∀ gId ∈ ids, 2 * gId + 1 < b.len)
    (hfits : ∀ gId ∈ ids, 2 * gId + 1 < 2 ^ 32) :
    ∃ b', b.storePairs ids acc = some b' ∧ b'.len = b.len ∧
      ∀ gId ∈ ids, b'.cell (2 * gId) = (acc gId).re ∧ b'.cell (2 * gId + 1) = (acc gId).im := by
  have hmem : ∀ w ∈ ids.flatMap fun gId =>
      [(u32 (2 * gId), (acc gId).re), (u32 (2 * gId + 1), (acc gId).im)],
      ∃ gId ∈ ids, w = (2 * gId, (acc gId).re) ∨ w = (2 * gId + 1, (acc gId).im) := by
    intro w hw
    obtain ⟨gId, hgId, hw⟩ := List.mem_flatMap.mp hw
    have := hfits gId hgId
    rw [u32_of_lt (x := 2 * gId) (by omega), u32_of_lt (x := 2 * gId + 1) (by omega)] at hw
    exact ⟨gId, hgId, by simpa using hw⟩
  have hin : ∀ gId ∈ ids, (2 * gId, (acc gId).re) ∈ (ids.flatMap fun gId =>
        [(u32 (2 * gId), (acc gId).re), (u32 (2 * gId + 1), (acc gId).im)]) ∧
      (2 * gId + 1, (acc gId).im) ∈ (ids.flatMap fun gId =>
        [(u32 (2 * gId), (acc gId).re), (u32 (2 * gId + 1), (acc gId).im)]) := by
    intro gId hgId
    have := hfits gId hgId
    constructor <;> refine List.mem_flatMap.mpr ⟨gId, hgId, ?_⟩
    · rw [u32_of_lt (x := 2 * gId) (by omega)]
      simp
    · rw [u32_of_lt (x := 2 * gId + 1) (by omega)]
      simp
  obtain ⟨b', hb', hlen', hcell, -⟩ := b.storeAll_spec (writes_lt hmem hlen) (writes_agree hmem)
  refine ⟨b', hb', hlen', ?_⟩
  intro gId hgId
  exact ⟨hcell _ (hin gId hgId).1, hcell _ (hin gId hgId).2⟩

/-! ### One evaluation -/

namespace OpeningConfig

variable (cfg : OpeningConfig)

/-- The polynomial of entry `p`. -/
def source (p : ℕ) : ℕ := if p < cfg.numPolys then p else p - cfg.numPolys + cfg.nextStart

/-- The point of entry `p`. -/
def point (zeta g : ExtensionField F) (p : ℕ) : ExtensionField F :=
  if p < cfg.numPolys then zeta else zeta * g

/-- The first coefficient of entry `p`, as the kernel numbers it. -/
def start (p : ℕ) : ℕ := u32 (cfg.source p * 2 ^ cfg.degreeBits)

/-- The sizes for which no launch is refused and no number of a thread or a tile wraps; the next
polynomials are among all polynomials. -/
structure Fits : Prop where
  pos : 0 < cfg.numPolys + cfg.numNext
  total_le : cfg.numPolys + cfg.numNext ≤ 2 ^ 25
  next_le : cfg.nextStart + cfg.numNext ≤ cfg.numPolys
  degree_ge : 6 ≤ cfg.degreeBits
  degree_lt : cfg.degreeBits < 32

variable {cfg}

/-- The tiles of all entries. -/
lemma openPolysNew_spec (hfit : cfg.Fits) (polys : ℕ → F) (zeta g : ExtensionField F)
    (buffer : DeviceBuffer F)
    (hlen : buffer.len = extensionDegree * (cfg.numPolys + cfg.numNext) * tileO) :
    ∃ buffer', openPolysNew polys zeta g buffer (cfg.numPolys + cfg.numNext) cfg.degreeBits
        cfg.numPolys cfg.numNext cfg.nextStart = some buffer' ∧
      ∀ p < cfg.numPolys + cfg.numNext, ∀ s < tileO,
        (⟨buffer'.cell (2 * (p * tileO + s)), buffer'.cell (2 * (p * tileO + s) + 1)⟩ :
            ExtensionField F) =
          evalSum (fun j => .C (polys (cfg.start p +
            (s * (2 ^ cfg.degreeBits / tileO) + j)))) (2 ^ cfg.degreeBits / tileO)
            (cfg.point zeta g p) := by
  have htotal := hfit.total_le
  have hdegree := hfit.degree_lt
  have hvalid : ValidLaunch 1 (cfg.numPolys + cfg.numNext) tileO :=
    ⟨by decide, ⟨hfit.pos, by omega⟩, by decide, by decide⟩
  have htile : tileO = 64 := rfl
  have hlimit : u32 (u32 (cfg.numPolys + cfg.numNext) * tileO) =
      (cfg.numPolys + cfg.numNext) * tileO := by
    rw [u32_of_lt (x := cfg.numPolys + cfg.numNext) (by omega), u32_of_lt (by rw [htile]; omega)]
  obtain ⟨ids, hids, hmem⟩ := gridIds_spec _ hvalid (by rw [htile]; omega) le_rfl
  obtain ⟨buffer', hstore, -, hcell⟩ := buffer.storePairs_spec ids (fun gId =>
    let pId := gId / tileO
    let segId := gId % tileO
    if pId < cfg.numPolys then
      openLoop (fun j => polys (u32 (pId * 2 ^ cfg.degreeBits) +
        u32 (segId * (2 ^ cfg.degreeBits / tileO)) + j)) zeta (2 ^ cfg.degreeBits / tileO) 0
    else
      openLoop (fun j => polys
        (u32 (u32 (pId + cfg.nextStart + 2 ^ 32 - cfg.numPolys) * 2 ^ cfg.degreeBits) +
          u32 (segId * (2 ^ cfg.degreeBits / tileO)) + j))
        (mulExt zeta g) (2 ^ cfg.degreeBits / tileO) 0)
    (fun gId hgId => by
      have := (hmem gId).mp hgId
      rw [hlen, extensionDegree, Nat.mul_assoc]
      omega)
    (fun gId hgId => by
      have := (hmem gId).mp hgId
      rw [htile] at this
      omega)
  refine ⟨buffer', ?_, ?_⟩
  · rw [openPolysNew, hlimit, hids, shlUnsigned, if_pos hdegree, Option.bind_eq_bind,
      Option.bind_some, Option.bind_eq_bind, Option.bind_some]
    exact hstore
  · intro p hp s hs
    have hid : p * tileO + s < (cfg.numPolys + cfg.numNext) * tileO := by
      calc p * tileO + s < (p + 1) * tileO := by rw [Nat.succ_mul]; omega
        _ ≤ (cfg.numPolys + cfg.numNext) * tileO := Nat.mul_le_mul_right _ hp
    have hdiv : (p * tileO + s) / tileO = p := by
      rw [Nat.mul_comm, Nat.mul_add_div (by decide), Nat.div_eq_of_lt hs, Nat.add_zero]
    have hmod : (p * tileO + s) % tileO = s := by
      rw [Nat.mul_comm, Nat.mul_add_mod, Nat.mod_eq_of_lt hs]
    have hseg : u32 (s * (2 ^ cfg.degreeBits / tileO)) = s * (2 ^ cfg.degreeBits / tileO) := by
      apply u32_of_lt
      calc s * (2 ^ cfg.degreeBits / tileO) ≤ tileO * (2 ^ cfg.degreeBits / tileO) :=
            Nat.mul_le_mul_right _ hs.le
        _ ≤ 2 ^ cfg.degreeBits := Nat.mul_div_le _ _
        _ < 2 ^ 32 := Nat.pow_lt_pow_right (by norm_num) hdegree
    have hnext := hfit.next_le
    obtain ⟨hre, him⟩ := hcell _ ((hmem _).mpr hid)
    rw [hre, him]
    simp only [hdiv, hmod, hseg, QuadraticAlgebra.mk_eta]
    unfold start source point
    split_ifs with hfirst
    · rw [openLoop_eq, ← horner, horner_eq]
      simp only [Nat.add_assoc]
    · have hwrap : u32 (p + cfg.nextStart + 2 ^ 32 - cfg.numPolys) =
          p - cfg.numPolys + cfg.nextStart := by
        have hsub : p + cfg.nextStart + 2 ^ 32 - cfg.numPolys =
            p - cfg.numPolys + cfg.nextStart + 2 ^ 32 := by omega
        rw [hsub, u32, Nat.add_mod_right]
        exact Nat.mod_eq_of_lt (by omega)
      rw [hwrap, openLoop_eq, ← horner, horner_eq, mulExt_eq]
      simp only [Nat.add_assoc]

/-- Every entry is the value of its polynomial at its point. -/
lemma compute_spec (hfit : cfg.Fits) (fpInputs : ℕ → F) (zeta g : ExtensionField F)
    (reduction device : DeviceBuffer F)
    (hreduction : reduction.len = extensionDegree * (cfg.numPolys + cfg.numNext) * tileO)
    (hdevice : device.len = extensionDegree * (cfg.numPolys + cfg.numNext)) :
    ∃ device', cfg.compute fpInputs zeta g reduction device = some device' ∧
      device'.len = device.len ∧ ∀ p < cfg.numPolys + cfg.numNext,
        (⟨device'.cell (2 * p), device'.cell (2 * p + 1)⟩ : ExtensionField F) =
          evalSum (fun j => .C (fpInputs (cfg.start p + j)))
            (2 ^ cfg.degreeBits) (cfg.point zeta g p) := by
  have htotal := hfit.total_le
  have hdegree := hfit.degree_lt
  have hpos := hfit.pos
  have hnext := hfit.next_le
  have htile : tileO = 64 := rfl
  have hsum : u32 (cfg.numPolys + cfg.numNext) = cfg.numPolys + cfg.numNext :=
    u32_of_lt (by omega)
  have hpolys : u32 cfg.numPolys = cfg.numPolys := u32_of_lt (by omega)
  have hnum : u32 cfg.numNext = cfg.numNext := u32_of_lt (by omega)
  have hstart : u32 cfg.nextStart = cfg.nextStart := u32_of_lt (by omega)
  have hbits : u32 cfg.degreeBits = cfg.degreeBits := u32_of_lt (by omega)
  have hblocks : u32 (cfg.numPolys + cfg.numNext + 32 - 1) / 32 =
      (cfg.numPolys + cfg.numNext + 31) / 32 := by
    rw [u32_of_lt (by omega)]
    rfl
  obtain ⟨reduction', hnew, htiles⟩ :=
    openPolysNew_spec hfit fpInputs zeta g reduction hreduction
  have hvalid : ValidLaunch 1 ((cfg.numPolys + cfg.numNext + 31) / 32) 32 :=
    ⟨by decide, ⟨by omega, by omega⟩, by decide, by decide⟩
  obtain ⟨ids, hids, hmem⟩ := gridIds_spec (cfg.numPolys + cfg.numNext) hvalid (by omega) (by omega)
  obtain ⟨device', hstore, hlen, hcell⟩ := device.storePairs_spec ids (fun gId =>
    let zetaPow := squareWhile (2 ^ cfg.degreeBits / tileO) 32 1
      (if gId < cfg.numPolys then zeta else mulExt zeta g)
    let start := u32 (2 * gId * tileO)
    openReduceLoop (fun j =>
      ⟨reduction'.cell (start + j * 2), reduction'.cell (start + (j * 2 + 1))⟩) zetaPow tileO 0)
    (fun gId hgId => by
      have := (hmem gId).mp hgId
      rw [hdevice, extensionDegree]
      omega)
    (fun gId hgId => by
      have := (hmem gId).mp hgId
      omega)
  refine ⟨device', ?_, hlen, ?_⟩
  · simp only [compute, hsum, hpolys, hnum, hstart, hbits, hnew, hblocks, Option.bind_eq_bind,
      Option.bind_some, openPolysReduce, hids, shlUnsigned, if_pos hdegree]
    exact hstore
  · intro p hp
    obtain ⟨hre, him⟩ := hcell p ((hmem p).mpr hp)
    have haddr : u32 (2 * p * tileO) = 2 * (p * tileO) := by
      rw [u32_of_lt (by rw [htile]; omega), Nat.mul_assoc]
    have hcells : ∀ s < tileO,
        (⟨reduction'.cell (2 * (p * tileO) + s * 2), reduction'.cell (2 * (p * tileO) + (s * 2 + 1))⟩ :
          ExtensionField F) =
          evalSum (fun j => .C (fpInputs (cfg.start p +
            (s * (2 ^ cfg.degreeBits / tileO) + j)))) (2 ^ cfg.degreeBits / tileO)
            (cfg.point zeta g p) := by
      intro s hs
      rw [← htiles p hp s hs]
      congr 2 <;> ring
    have hpoint : (if p < cfg.numPolys then zeta else mulExt zeta g) = cfg.point zeta g p := by
      unfold point
      split_ifs
      · rfl
      · exact mulExt_eq zeta g
    have hlen' : tileO * (2 ^ cfg.degreeBits / tileO) = 2 ^ cfg.degreeBits :=
      Nat.mul_div_cancel' (Nat.pow_dvd_pow 2 hfit.degree_ge)
    rw [hre, him]
    simp only [haddr, hpoint, QuadraticAlgebra.mk_eta]
    rw [openReduceLoop_eq, ← horner, horner_eq, evalSum_congr hcells,
      two_pow_div_tileO hfit.degree_ge, squareWhile_one (by omega),
      ← two_pow_div_tileO hfit.degree_ge]
    have htiled := evalSum_tiles (fun j => (.C (fpInputs (cfg.start p + j)) :
      ExtensionField F)) (2 ^ cfg.degreeBits / tileO) tileO (cfg.point zeta g p)
    rw [htiled, hlen']

end OpeningConfig

/-! ### The openings of a circuit -/

namespace CommonCircuitData

variable (c : CommonCircuitData)

/-- `opening_config`. -/
def openingConfig : OpeningConfig where
  degreeBits := c.degreeBits
  numPolys := c.counts.numPolys
  numNext := c.numChallenges
  nextStart := c.counts.offset .partialProducts

/-- The value at `z` of polynomial number `p`. -/
def openingAt (fpInputs : ℕ → F) (p : ℕ) (z : ExtensionField F) : F × F :=
  let value := evalSum (fun j => (.C (fpInputs (p * 2 ^ c.degreeBits + j)) : ExtensionField F))
    (2 ^ c.degreeBits) z
  (value.re, value.im)

/-- All polynomials at `zeta`, and the `Z` polynomials at the next point. -/
def openingSetAt (fpInputs : ℕ → F) (zeta next : ExtensionField F) : OpeningSet F where
  constants := (List.range c.numConstants).map fun i => c.openingAt fpInputs i zeta
  plonkSigmas := (List.range c.numRoutedWires).map fun i =>
    c.openingAt fpInputs (c.numConstants + i) zeta
  wires := (List.range c.counts.numWires).map fun i =>
    c.openingAt fpInputs (c.counts.offset .wires + i) zeta
  plonkZs := (List.range c.numChallenges).map fun i =>
    c.openingAt fpInputs (c.counts.offset .partialProducts + i) zeta
  plonkZsNext := (List.range c.numChallenges).map fun i =>
    c.openingAt fpInputs (c.counts.offset .partialProducts + i) next
  partialProducts := (List.range (c.counts.numPartialProducts - c.numChallenges)).map fun i =>
    c.openingAt fpInputs (c.counts.offset .partialProducts + c.numChallenges + i) zeta
  quotientPolys := (List.range c.counts.numQuotients).map fun i =>
    c.openingAt fpInputs (c.counts.offset .quotients + i) zeta
  lookupZs := []
  lookupZsNext := []

/-- The openings of the proof are the values of all polynomials, whatever the buffers held. -/
def OpeningsMatch (F : Type) [CommRing F] : Prop :=
  ∀ (fpInputs : ℕ → F) (zeta g : ExtensionField F) (reduction device : DeviceBuffer F),
    reduction.len = extensionDegree * (c.counts.numPolys + c.numChallenges) * tileO →
    device.len = extensionDegree * (c.counts.numPolys + c.numChallenges) →
    ∃ openings, c.openingConfig.compute fpInputs zeta g reduction device = some openings ∧
      getOpeningSet c.counts c.assemblyConfig openings =
        some (c.openingSetAt fpInputs zeta (zeta * g))

variable {c}

lemma four_le_numPolys : 4 ≤ c.counts.numPolys := by
  have hrouted := c.four_le_routed
  simp only [PolyCounts.numPolys, counts]
  omega

lemma fits_openingConfig (hdegree : 6 ≤ c.degreeBits) (hlt : c.degreeBits < 32)
    (htotal : c.counts.numPolys + c.numChallenges ≤ 2 ^ 25)
    (hchallenges : c.numChallenges ≤ c.counts.numPartialProducts) : c.openingConfig.Fits := by
  have hpolys := c.four_le_numPolys
  refine ⟨?_, htotal, ?_, hdegree, hlt⟩
  · simp only [openingConfig]
    omega
  · simp only [openingConfig, PolyCounts.offset, PolyCounts.numPolys]
    omega

section Source

variable (c)

lemma source_of_lt {p : ℕ} (hp : p < c.counts.numPolys) : c.openingConfig.source p = p :=
  if_pos hp

lemma point_of_lt {p : ℕ} (hp : p < c.counts.numPolys) (zeta g : ExtensionField F) :
    c.openingConfig.point zeta g p = zeta :=
  if_pos hp

lemma source_next (i : ℕ) : c.openingConfig.source (c.counts.numPolys + i) =
    c.counts.offset .partialProducts + i := by
  rw [OpeningConfig.source, if_neg (by simp [openingConfig])]
  simp only [openingConfig]
  omega

lemma point_next (i : ℕ) (zeta g : ExtensionField F) :
    c.openingConfig.point zeta g (c.counts.numPolys + i) = zeta * g :=
  if_neg (by simp [openingConfig])

end Source

/-- The first coefficient of the last polynomial has a 32-bit number, and there is a `Z`
polynomial for every challenge. -/
structure OpeningsFit (c : CommonCircuitData) : Prop where
  coefficients_lt : (c.counts.numPolys - 1) * 2 ^ c.degreeBits < 2 ^ 32
  challenges_le : c.numChallenges ≤ c.counts.numPartialProducts

lemma OpeningsFit.degree_lt (hfit : c.OpeningsFit) : c.degreeBits < 32 := by
  by_contra hlarge
  have hpolys := c.four_le_numPolys
  have hcoefficients := hfit.coefficients_lt
  have hpow : 2 ^ 32 ≤ 2 ^ c.degreeBits :=
    Nat.pow_le_pow_right (by norm_num) (Nat.not_lt.mp hlarge)
  have hmul := Nat.mul_le_mul_right (2 ^ c.degreeBits) (show 1 ≤ c.counts.numPolys - 1 by omega)
  omega

lemma OpeningsFit.start_eq (hfit : c.OpeningsFit) {p : ℕ}
    (hp : c.openingConfig.source p < c.counts.numPolys) :
    c.openingConfig.start p = c.openingConfig.source p * 2 ^ c.degreeBits :=
  u32_of_lt ((Nat.mul_le_mul_right _ (by omega)).trans_lt hfit.coefficients_lt)

/-- `getOpeningSet` of a buffer whose entries are the values of all polynomials. -/
lemma getOpeningSet_of_values {fpInputs : ℕ → F} {zeta next : ExtensionField F}
    {openings : DeviceBuffer F}
    (hlen : openings.len = extensionDegree * (c.counts.numPolys + c.numChallenges))
    (hchallenges : c.numChallenges ≤ c.counts.numPartialProducts)
    (hfirst : ∀ p < c.counts.numPolys,
      (openings.cell (2 * p), openings.cell (2 * p + 1)) = c.openingAt fpInputs p zeta)
    (hnext : ∀ i < c.numChallenges,
      (openings.cell (2 * (c.counts.numPolys + i)),
        openings.cell (2 * (c.counts.numPolys + i) + 1)) =
          c.openingAt fpInputs (c.counts.offset .partialProducts + i) next) :
    getOpeningSet c.counts c.assemblyConfig openings = some (c.openingSetAt fpInputs zeta next) := by
  have hvec : extensionVec openings.len openings.cell =
      (List.range (c.counts.numPolys + c.numChallenges)).map fun i =>
        (openings.cell (2 * i), openings.cell (2 * i + 1)) := by
    rw [extensionVec, hlen, Nat.mul_div_cancel_left _ (by decide)]
  have hconst : c.counts.numConstSigmas = c.numConstants + c.numRoutedWires := rfl
  have hslice : ∀ start stop, start ≤ stop → stop ≤ c.counts.numPolys →
      sliceRange (extensionVec openings.len openings.cell) start stop =
        some ((List.range (stop - start)).map fun i => c.openingAt fpInputs (start + i) zeta) := by
    intro start stop hle hstop
    rw [hvec, sliceRange_of_range hle (by omega), Option.some.injEq]
    apply List.map_congr_left
    intro i hi
    exact hfirst _ (by have := List.mem_range.mp hi; omega)
  have hlast : sliceRange (extensionVec openings.len openings.cell) c.counts.numPolys
      (extensionVec openings.len openings.cell).length =
        some ((List.range c.numChallenges).map fun i =>
          c.openingAt fpInputs (c.counts.offset .partialProducts + i) next) := by
    have hlength : (extensionVec openings.len openings.cell).length =
        c.counts.numPolys + c.numChallenges := by
      rw [hvec, List.length_map, List.length_range]
    rw [hlength, hvec, sliceRange_of_range (by omega) le_rfl, Nat.add_sub_cancel_left,
      Option.some.injEq]
    apply List.map_congr_left
    intro i hi
    exact hnext i (List.mem_range.mp hi)
  have hpolys : c.counts.numPolys = c.counts.numConstSigmas + c.counts.numWires +
    c.counts.numPartialProducts + c.counts.numQuotients := rfl
  have hoffset : c.counts.offset .partialProducts = c.counts.numConstSigmas + c.counts.numWires :=
    rfl
  have hwires : c.counts.offset .wires = c.counts.numConstSigmas := rfl
  have hquotients : c.counts.offset .quotients =
    c.counts.offset .partialProducts + c.counts.numPartialProducts := rfl
  simp only [getOpeningSet, assemblyConfig]
  rw [hslice _ _ (by omega) (by omega), hslice _ _ (by omega) (by omega),
    hslice _ _ (by omega) (by omega), hslice _ _ (by omega) (by omega), hlast,
    hslice _ _ (by omega) (by omega), hslice _ _ (by omega) (by omega)]
  have hsub : c.counts.offset .partialProducts + c.counts.numPartialProducts -
      (c.counts.offset .partialProducts + c.numChallenges) =
        c.counts.numPartialProducts - c.numChallenges := by omega
  have hlastSub : c.counts.numPolys -
      (c.counts.offset .partialProducts + c.counts.numPartialProducts) =
        c.counts.numQuotients := by omega
  have hwiresSub : c.counts.offset .partialProducts - c.counts.numConstSigmas =
      c.counts.numWires := by omega
  rw [hsub, hlastSub, hwiresSub]
  simp only [openingSetAt, Option.bind_eq_bind, Option.bind_some, Option.pure_def,
    Nat.add_sub_cancel_left, Nat.sub_zero, Nat.zero_add, hwires, hquotients]

/-- The values of the opening set in the order of the polynomials. -/
lemma flatten_openingSetAt (fpInputs : ℕ → F) (zeta next : ExtensionField F)
    (hchallenges : c.numChallenges ≤ c.counts.numPartialProducts) :
    (c.openingSetAt fpInputs zeta next).toFriOpenings.flatten =
      ((List.range c.counts.numPolys).map fun p => c.openingAt fpInputs p zeta) ++
        (List.range c.numChallenges).map fun i =>
          c.openingAt fpInputs (c.counts.offset .partialProducts + i) next := by
  obtain ⟨rest, hrest⟩ := Nat.exists_eq_add_of_le hchallenges
  have hpolys : c.counts.numPolys = c.numConstants + c.numRoutedWires + c.counts.numWires +
      c.numChallenges + rest + c.counts.numQuotients := by
    rw [PolyCounts.numPolys, hrest, ← Nat.add_assoc]
    rfl
  have hwires : c.counts.offset .wires = c.numConstants + c.numRoutedWires := rfl
  have hpartial : c.counts.offset .partialProducts =
      c.numConstants + c.numRoutedWires + c.counts.numWires := rfl
  have hquotients : c.counts.offset .quotients =
      c.numConstants + c.numRoutedWires + c.counts.numWires + c.numChallenges + rest := by
    rw [PolyCounts.offset, hrest, ← Nat.add_assoc]
    rfl
  simp only [openingSetAt, OpeningSet.toFriOpenings, hpolys, hwires, hpartial, hquotients, hrest,
    Nat.add_sub_cancel_left, List.range_add, List.map_append, List.map_map, Function.comp_def,
    List.flatten_cons, List.flatten_nil, List.append_nil]

/-- The last polynomial is read from another place when the number of its first coefficient
wraps. -/
lemma start_last_lt (hlt : c.degreeBits < 32)
    (hwrap : 2 ^ 32 ≤ (c.counts.numPolys - 1) * 2 ^ c.degreeBits) {j : ℕ}
    (hj : j < 2 ^ c.degreeBits) :
    c.openingConfig.start (c.counts.numPolys - 1) + j <
      (c.counts.numPolys - 1) * 2 ^ c.degreeBits := by
  have hpolys := c.four_le_numPolys
  have hstart : c.openingConfig.start (c.counts.numPolys - 1) =
      u32 ((c.counts.numPolys - 1) * 2 ^ c.degreeBits) := by
    rw [OpeningConfig.start, c.source_of_lt (by omega)]
    rfl
  calc c.openingConfig.start (c.counts.numPolys - 1) + j
      < u32 ((c.counts.numPolys - 1) * 2 ^ c.degreeBits) + 2 ^ c.degreeBits := by
        rw [hstart]
        exact Nat.add_lt_add_left hj _
    _ ≤ 2 ^ 32 := u32_mul_two_pow_add_le _ hlt.le
    _ ≤ (c.counts.numPolys - 1) * 2 ^ c.degreeBits := hwrap

lemma challenges_le_of_openingsMatch (hmatch : c.OpeningsMatch F) :
    c.numChallenges ≤ c.counts.numPartialProducts := by
  obtain ⟨openings, -, hset⟩ := hmatch 0 0 0 ⟨_, 0⟩ ⟨_, 0⟩ rfl rfl
  unfold getOpeningSet at hset
  simp only [Option.bind_eq_bind, Option.bind_eq_some_iff] at hset
  obtain ⟨_, _, _, _, _, _, _, _, _, _, _, hpartial, -⟩ := hset
  have hle := (sliceRange_eq_some hpartial).1
  simp only [assemblyConfig] at hle
  omega

/-- `1 << degree_bits` is not defined at the width of its type. -/
lemma degree_lt_of_openingsMatch (hmatch : c.OpeningsMatch F) : c.degreeBits < 32 := by
  obtain ⟨openings, hcompute, -⟩ := hmatch 0 0 0 ⟨_, 0⟩ ⟨_, 0⟩ rfl rfl
  have hlde := c.lde_le
  unfold OpeningConfig.compute openPolysNew at hcompute
  simp only [Option.bind_eq_bind, Option.bind_eq_some_iff] at hcompute
  obtain ⟨-, ⟨-, -, degree, hdegree, -⟩, -⟩ := hcompute
  have hbits : u32 c.openingConfig.degreeBits = c.degreeBits :=
    u32_of_lt (by simp only [openingConfig]; omega)
  rw [hbits, shlUnsigned] at hdegree
  by_contra hlarge
  rw [if_neg hlarge] at hdegree
  cases hdegree

/-- The openings of a polynomial whose only nonzero coefficient is read from another place. -/
lemma coefficients_lt_of_openingsMatch [Nontrivial F] (hdegree : 6 ≤ c.degreeBits)
    (htotal : c.counts.numPolys + c.numChallenges ≤ 2 ^ 25) (hmatch : c.OpeningsMatch F) :
    (c.counts.numPolys - 1) * 2 ^ c.degreeBits < 2 ^ 32 := by
  by_contra hwrap
  have hpolys := c.four_le_numPolys
  have hlt := degree_lt_of_openingsMatch hmatch
  have hchallenges := challenges_le_of_openingsMatch hmatch
  set last := c.counts.numPolys - 1 with hlast
  set fpInputs : ℕ → F := Pi.single (last * 2 ^ c.degreeBits) 1 with hinputs
  obtain ⟨openings, hcompute, hset⟩ := hmatch fpInputs 0 0 ⟨_, 0⟩ ⟨_, 0⟩ rfl rfl
  obtain ⟨openings', hcompute', hlen, hvalue⟩ := OpeningConfig.compute_spec
    (fits_openingConfig hdegree hlt htotal hchallenges) fpInputs 0 0
    (⟨extensionDegree * (c.counts.numPolys + c.numChallenges) * tileO, 0⟩ : DeviceBuffer F)
    ⟨extensionDegree * (c.counts.numPolys + c.numChallenges), 0⟩ rfl rfl
  obtain rfl : openings = openings' := by
    rw [hcompute, Option.some.injEq] at hcompute'
    exact hcompute'
  have hflat := flatten_of_getOpeningSet rfl hset
  rw [flatten_openingSetAt _ _ _ hchallenges, extensionVec, hlen,
    Nat.mul_div_cancel_left _ (by decide), List.range_add, List.map_append] at hflat
  have hfirst := (List.append_inj hflat (by simp)).1
  have hentry := List.map_inj_left.mp hfirst last (List.mem_range.mpr (by omega))
  have hone : evalSum (fun j => (.C (fpInputs (last * 2 ^ c.degreeBits + j)) : ExtensionField F))
      (2 ^ c.degreeBits) 0 = 1 := by
    rw [evalSum, Finset.sum_eq_single 0]
    · simp [hinputs, QuadraticAlgebra.C_one]
    · intro j _ hj
      rw [zero_pow hj, mul_zero]
    · intro hmem
      exact absurd (Finset.mem_range.mpr (by positivity)) hmem
  have hzero : evalSum
      (fun j => (.C (fpInputs (c.openingConfig.start last + j)) : ExtensionField F))
      (2 ^ c.degreeBits) (c.openingConfig.point 0 0 last) = 0 := by
    apply Finset.sum_eq_zero
    intro j hj
    have hne := (start_last_lt hlt (Nat.not_lt.mp hwrap) (Finset.mem_range.mp hj)).ne
    have hcell : fpInputs (c.openingConfig.start last + j) = 0 := Pi.single_eq_of_ne hne _
    simp only [hcell, QuadraticAlgebra.C_zero, zero_mul]
  have hread := (hvalue last (by simp only [openingConfig]; omega)).trans hzero
  have hre : openings.cell (2 * last) = 0 := congrArg QuadraticAlgebra.re hread
  rw [openingAt, hone, Prod.mk.injEq, hre] at hentry
  exact one_ne_zero hentry.1

/-- When the entries have numbers below `2 ^ 25`, the openings of the proof are the values of all
polynomials exactly when the first coefficient of each has a 32-bit number and there is a `Z`
polynomial for every challenge. -/
theorem openingsMatch_iff [Nontrivial F] (hdegree : 6 ≤ c.degreeBits)
    (htotal : c.counts.numPolys + c.numChallenges ≤ 2 ^ 25) :
    c.OpeningsMatch F ↔ c.OpeningsFit := by
  constructor
  · intro hmatch
    exact ⟨coefficients_lt_of_openingsMatch hdegree htotal hmatch,
      challenges_le_of_openingsMatch hmatch⟩
  · intro hfit fpInputs zeta g reduction device hreduction hdevice
    obtain ⟨openings, hcompute, hlen, hvalue⟩ := OpeningConfig.compute_spec
      (fits_openingConfig hdegree hfit.degree_lt htotal hfit.challenges_le)
      fpInputs zeta g reduction device hreduction hdevice
    refine ⟨openings, hcompute, ?_⟩
    apply getOpeningSet_of_values (hlen.trans hdevice) hfit.challenges_le
    · intro p hp
      have hread := hvalue p (Nat.lt_add_right _ hp)
      have hstart := hfit.start_eq (p := p) (by rwa [c.source_of_lt hp])
      rw [c.source_of_lt hp] at hstart
      rw [hstart, c.point_of_lt hp] at hread
      exact congrArg (fun e : ExtensionField F => (e.re, e.im)) hread
    · intro i hi
      have hread := hvalue (c.counts.numPolys + i) (Nat.add_lt_add_left hi _)
      have hlt : c.counts.offset .partialProducts + i < c.counts.numPolys := by
        have := hfit.challenges_le
        simp only [PolyCounts.offset, PolyCounts.numPolys]
        omega
      have hstart := hfit.start_eq (p := c.counts.numPolys + i) (by rwa [c.source_next])
      rw [c.source_next] at hstart
      rw [hstart, c.point_next] at hread
      exact congrArg (fun e : ExtensionField F => (e.re, e.im)) hread

end CommonCircuitData

/-- The standard recursion configuration. -/
theorem openingsMatch_standardRecursion :
    standardRecursion.OpeningsMatch (ZMod goldilocksOrder) :=
  (CommonCircuitData.openingsMatch_iff (by decide) (by decide)).mpr ⟨by decide, by decide⟩

/-- The standard recursion configuration with `2 ^ 25` rows. -/
def largeRecursion : CommonCircuitData where
  numWires := 135
  numRoutedWires := 80
  numChallenges := 2
  maxQuotientDegreeFactor := 8
  zeroKnowledge := false
  rateBits := 3
  capHeight := 4
  numQueryRounds := 28
  degreeBits := 25
  reductionArityBits := [4, 4, 4, 4, 4]
  numConstants := 4
  numPublicInputs := 4
  numLookupPolys := 0
  arities_le := by decide
  quotientDegree_pow := standardQuotientDegree
  four_le_routed := standardRoutedWires
  lde_le := by decide

/-- The number of the first coefficient of its last polynomial wraps. -/
theorem not_openingsMatch_largeRecursion :
    ¬ largeRecursion.OpeningsMatch (ZMod goldilocksOrder) := by
  intro hmatch
  have hlt := CommonCircuitData.coefficients_lt_of_openingsMatch (by decide) (by decide) hmatch
  exact absurd hlt (by decide)

end MegaZK
