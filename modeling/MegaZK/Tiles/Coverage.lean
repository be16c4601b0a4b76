import MegaZK.Openings
import MegaZK.Tiles.FinalPoly
import MegaZK.Tiles.MulExp
import MegaZK.Tiles.ReverseIndexBits

/-! # Coverage

Whether the launches of a prove reach every element of their arrays once, and transform all of
them. Each kernel has a tile of its own, and a degree below which there is no whole tile. -/

namespace MegaZK

open Grid Cover Horner

/-! ### Openings -/

namespace OpeningConfig

variable (cfg : OpeningConfig)

/-- The coefficient that step `x.2` of thread `x.1` of `open_polys_new` reads. -/
def readAddress (degree : ℕ) (x : ℕ × ℕ) : ℕ :=
  let pId := x.1 / tileO
  let row := if pId < cfg.numPolys then u32 (pId * degree)
    else u32 (u32 (pId + cfg.nextStart + 2 ^ 32 - cfg.numPolys) * degree)
  row + u32 (x.1 % tileO * (degree / tileO)) + x.2

/-- What `open_polys_new` is for: the threads of an entry read every coefficient of its polynomial
once, and their results put together are its value. -/
structure OpensTiles : Prop where
  covers : ∃ ids degree, gridIds (u32 (cfg.numPolys + cfg.numNext)) tileO
      (u32 (u32 (cfg.numPolys + cfg.numNext) * tileO)) = some ids ∧
    shlUnsigned cfg.degreeBits = some degree ∧ ∀ p < cfg.numPolys + cfg.numNext,
      Covers ((ids.filter fun gId => gId / tileO = p) ×ˢ List.range (degree / tileO))
        (cfg.readAddress degree) (cfg.source p * 2 ^ cfg.degreeBits)
        ((cfg.source p + 1) * 2 ^ cfg.degreeBits)
  result : ∀ (polys : ℕ → GoldilocksField) (zeta g : QuadraticExtension)
    (buffer : DeviceBuffer GoldilocksField),
    buffer.len = extensionDegree * (cfg.numPolys + cfg.numNext) * tileO →
      ∃ buffer', openPolysNew polys zeta g buffer (u32 (cfg.numPolys + cfg.numNext))
          (u32 cfg.degreeBits) (u32 cfg.numPolys) (u32 cfg.numNext) (u32 cfg.nextStart) =
            some buffer' ∧
        ∀ p < cfg.numPolys + cfg.numNext,
          evalSum (fun s => (⟨buffer'.cell (2 * (p * tileO + s)),
              buffer'.cell (2 * (p * tileO + s) + 1)⟩ : QuadraticExtension)) tileO
              (cfg.point zeta g p ^ (2 ^ cfg.degreeBits / tileO)) =
            evalSum (fun j => .C (polys (cfg.source p * 2 ^ cfg.degreeBits + j)))
              (2 ^ cfg.degreeBits) (cfg.point zeta g p)

variable {cfg}

section Large

variable (hfit : cfg.Fits) (hsize : cfg.numPolys * 2 ^ cfg.degreeBits ≤ 2 ^ 32)

include hfit

lemma source_lt {p : ℕ} (hp : p < cfg.numPolys + cfg.numNext) : cfg.source p < cfg.numPolys := by
  have hnext := hfit.next_le
  rw [source]
  split_ifs
  · assumption
  · omega

lemma two_pow_segments : tileO * (2 ^ cfg.degreeBits / tileO) = 2 ^ cfg.degreeBits :=
  Nat.mul_div_cancel' (Nat.pow_dvd_pow 2 hfit.degree_ge)

include hsize

lemma start_eq {p : ℕ} (hp : p < cfg.numPolys + cfg.numNext) :
    cfg.start p = cfg.source p * 2 ^ cfg.degreeBits := by
  apply u32_of_lt
  calc cfg.source p * 2 ^ cfg.degreeBits < cfg.numPolys * 2 ^ cfg.degreeBits :=
        Nat.mul_lt_mul_of_pos_right (source_lt hfit hp) (Nat.two_pow_pos _)
    _ ≤ 2 ^ 32 := hsize

lemma readAddress_eq {x : ℕ × ℕ} (hx : x.1 / tileO < cfg.numPolys + cfg.numNext) :
    cfg.readAddress (2 ^ cfg.degreeBits) x = cfg.source (x.1 / tileO) * 2 ^ cfg.degreeBits +
      (x.1 % tileO * (2 ^ cfg.degreeBits / tileO) + x.2) := by
  have hnext := hfit.next_le
  have htotal := hfit.total_le
  have hseg : x.1 % tileO * (2 ^ cfg.degreeBits / tileO) < 2 ^ 32 := by
    calc x.1 % tileO * (2 ^ cfg.degreeBits / tileO) ≤ tileO * (2 ^ cfg.degreeBits / tileO) :=
          Nat.mul_le_mul_right _ (Nat.mod_lt _ (by decide)).le
      _ = 2 ^ cfg.degreeBits := two_pow_segments hfit
      _ < 2 ^ 32 := Nat.pow_lt_pow_right (by decide) hfit.degree_lt
  have hrow : (if x.1 / tileO < cfg.numPolys then u32 (x.1 / tileO * 2 ^ cfg.degreeBits)
      else u32 (u32 (x.1 / tileO + cfg.nextStart + 2 ^ 32 - cfg.numPolys) * 2 ^ cfg.degreeBits)) =
        cfg.source (x.1 / tileO) * 2 ^ cfg.degreeBits := by
    rw [← start_eq hfit hsize hx, start, source]
    split_ifs with hfirst
    · rfl
    · have hsub : x.1 / tileO + cfg.nextStart + 2 ^ 32 - cfg.numPolys =
          x.1 / tileO - cfg.numPolys + cfg.nextStart + 2 ^ 32 := by omega
      have hwrap : u32 (x.1 / tileO + cfg.nextStart + 2 ^ 32 - cfg.numPolys) =
          x.1 / tileO - cfg.numPolys + cfg.nextStart := by
        rw [hsub, u32, Nat.add_mod_right]
        exact Nat.mod_eq_of_lt (by omega)
      rw [hwrap]
  simp only [readAddress]
  rw [hrow, u32_of_lt hseg, add_assoc]

/-- The threads of an entry and their steps read every coefficient once. -/
lemma covers_readAddress {ids : List ℕ}
    (hids : ∀ gId, gId ∈ ids ↔ gId < (cfg.numPolys + cfg.numNext) * tileO) {p : ℕ}
    (hp : p < cfg.numPolys + cfg.numNext) :
    Covers ((ids.filter fun gId => gId / tileO = p) ×ˢ List.range (2 ^ cfg.degreeBits / tileO))
      (cfg.readAddress (2 ^ cfg.degreeBits)) (cfg.source p * 2 ^ cfg.degreeBits)
      ((cfg.source p + 1) * 2 ^ cfg.degreeBits) := by
  have hmem : ∀ x : ℕ × ℕ, x ∈ (ids.filter fun gId => gId / tileO = p) ×ˢ
      List.range (2 ^ cfg.degreeBits / tileO) ↔
        x.1 / tileO = p ∧ x.2 < 2 ^ cfg.degreeBits / tileO := by
    intro x
    rw [List.mem_product, List.mem_filter, hids, List.mem_range, decide_eq_true_iff]
    constructor
    · rintro ⟨⟨-, hid⟩, hj⟩
      exact ⟨hid, hj⟩
    · rintro ⟨rfl, hj⟩
      exact ⟨⟨Nat.lt_mul_of_div_lt hp (by decide), rfl⟩, hj⟩
  rw [covers_congr (f := fun x => cfg.source p * 2 ^ cfg.degreeBits +
    (x.1 % tileO * (2 ^ cfg.degreeBits / tileO) + x.2))]
  · have hend : (cfg.source p + 1) * 2 ^ cfg.degreeBits =
        cfg.source p * 2 ^ cfg.degreeBits + tileO * (2 ^ cfg.degreeBits / tileO) := by
      rw [two_pow_segments hfit, Nat.succ_mul]
    rw [hend]
    refine (covers_stride (bijOn_pair ?_ ?_ ?_)).shift _
    · intro x hx
      exact ⟨Nat.mod_lt _ (by decide), ((hmem x).mp hx).2⟩
    · rintro ⟨gId, j⟩ hx ⟨gId', j'⟩ hx' hseg rfl
      have hid : gId / tileO = p := ((hmem _).mp hx).1
      have hid' : gId' / tileO = p := ((hmem _).mp hx').1
      have hseg : gId % tileO = gId' % tileO := hseg
      have heq : gId = gId' := by
        rw [← Nat.div_add_mod gId tileO, ← Nat.div_add_mod gId' tileO, hid, hid', hseg]
      rw [heq]
    · intro seg hseg j hj
      have hmod : (p * tileO + seg) % tileO = seg := by
        rw [add_comm, Nat.add_mul_mod_self_right, Nat.mod_eq_of_lt hseg]
      have hdiv : (p * tileO + seg) / tileO = p := by
        rw [add_comm, Nat.add_mul_div_right _ _ (by decide), Nat.div_eq_of_lt hseg, zero_add]
      exact ⟨(p * tileO + seg, j), (hmem _).mpr ⟨hdiv, hj⟩, hmod, rfl⟩
  · intro x hx
    obtain ⟨rfl, -⟩ := (hmem x).mp hx
    exact readAddress_eq hfit hsize hp

lemma opensTiles_of_le : cfg.OpensTiles := by
  have htotal := hfit.total_le
  have hnext := hfit.next_le
  have hdegree := hfit.degree_lt
  have htile : tileO = 64 := rfl
  have hsum : u32 (cfg.numPolys + cfg.numNext) = cfg.numPolys + cfg.numNext :=
    u32_of_lt (by omega)
  have hlimit : u32 ((cfg.numPolys + cfg.numNext) * tileO) =
      (cfg.numPolys + cfg.numNext) * tileO := u32_of_lt (by rw [htile]; omega)
  constructor
  · have hvalid : ValidLaunch 1 (cfg.numPolys + cfg.numNext) tileO :=
      ⟨by decide, ⟨hfit.pos, by omega⟩, by decide, by decide⟩
    obtain ⟨ids, hgrid, hids⟩ := gridIds_spec _ hvalid (by rw [htile]; omega) (le_refl _)
    refine ⟨ids, 2 ^ cfg.degreeBits, ?_, if_pos hdegree, ?_⟩
    · rwa [hsum, hlimit]
    · intro p hp
      exact covers_readAddress hfit hsize hids hp
  · intro polys zeta g buffer hlen
    obtain ⟨buffer', hbuffer', htiles⟩ := openPolysNew_spec hfit polys zeta g buffer hlen
    have hpolys : u32 cfg.numPolys = cfg.numPolys := u32_of_lt (by omega)
    have hnum : u32 cfg.numNext = cfg.numNext := u32_of_lt (by omega)
    have hstart : u32 cfg.nextStart = cfg.nextStart := u32_of_lt (by omega)
    have hbits : u32 cfg.degreeBits = cfg.degreeBits := u32_of_lt (by omega)
    refine ⟨buffer', ?_, ?_⟩
    · rwa [hsum, hpolys, hnum, hstart, hbits]
    · intro p hp
      have htiled := evalSum_tiles (fun j => (.C (polys (cfg.start p + j)) : QuadraticExtension))
        (2 ^ cfg.degreeBits / tileO) tileO (cfg.point zeta g p)
      rw [evalSum_congr fun s hs => htiles p hp s hs, htiled, two_pow_segments hfit,
        start_eq hfit hsize hp]

end Large

end OpeningConfig

/-! ### The launches of a circuit -/

namespace CommonCircuitData

variable (c : CommonCircuitData)

/-- The launches on arrays of the degree of the circuit, of which there are at most as many as
polynomials. -/
structure LaunchesCover : Prop where
  reverse : ∀ n, 0 < n → n ≤ c.counts.numPolys → ReversesIndexBits c.degreeBits n
  mulExp : ∀ n, 0 < n → n ≤ c.counts.numPolys → MultipliesByPowers c.degreeBits n
  coset : PadsCosetExt c.degreeBits
  openings : c.openingConfig.OpensTiles
  divide : Divides c.degreeBits
  shiftAdd : ShiftAdds c.degreeBits c.counts.numPolys
  shiftAddNext : ShiftAdds c.degreeBits c.numChallenges

variable {c}

/-- There are at least as many quotient polynomials as challenges. -/
lemma numChallenges_le : c.counts.offset .partialProducts + c.numChallenges ≤ c.counts.numPolys := by
  obtain ⟨k, hk⟩ := c.quotientDegree_pow
  have hquotients : 1 * c.numChallenges ≤ c.maxQuotientDegreeFactor * c.numChallenges := by
    refine Nat.mul_le_mul_right _ ?_
    rw [hk]
    exact Nat.one_le_two_pow
  simp only [PolyCounts.offset, PolyCounts.numPolys, counts]
  omega

lemma fits_of_size (hdegree : 10 ≤ c.degreeBits)
    (hsize : c.counts.numPolys * 2 ^ c.degreeBits ≤ 2 ^ 32) :
    c.counts.numPolys ≤ 2 ^ 22 ∧ c.degreeBits < 32 ∧ c.openingConfig.Fits := by
  have hpolys := c.four_le_numPolys
  have hchallenges := c.numChallenges_le
  have hcount : c.counts.numPolys ≤ 2 ^ 22 := by
    have hpow : 2 ^ 10 ≤ 2 ^ c.degreeBits := Nat.pow_le_pow_right (by decide) hdegree
    have hmul := Nat.mul_le_mul_left c.counts.numPolys hpow
    omega
  have hlt : c.degreeBits < 32 := by
    by_contra hge
    have hpow : 2 ^ 32 ≤ 2 ^ c.degreeBits := Nat.pow_le_pow_right (by decide) (not_lt.mp hge)
    have hmul := Nat.mul_le_mul hpolys hpow
    omega
  refine ⟨hcount, hlt, ?_, ?_, ?_, ?_, hlt⟩
  · simp only [openingConfig]
    omega
  · simp only [openingConfig]
    omega
  · exact hchallenges
  · exact (by decide : 6 ≤ 10).trans hdegree

/-- The last polynomial is read at its place only if the numbers of its coefficients fit. -/
lemma size_le_of_opensTiles (hlt : c.degreeBits < 32)
    (h : c.openingConfig.OpensTiles) : c.counts.numPolys * 2 ^ c.degreeBits ≤ 2 ^ 32 := by
  by_contra hlarge
  have hpolys := c.four_le_numPolys
  obtain ⟨ids, degree, -, hshl, hcovers⟩ := h.covers
  have hbits : c.openingConfig.degreeBits = c.degreeBits := rfl
  obtain rfl : 2 ^ c.degreeBits = degree := by
    rw [hbits, shlUnsigned, if_pos hlt] at hshl
    exact Option.some.inj hshl
  have hwrap : 2 ^ 32 ≤ (c.counts.numPolys - 1) * 2 ^ c.degreeBits := by
    obtain ⟨q, hq⟩ := Nat.pow_dvd_pow 2 hlt.le
    rw [hq, mul_comm (2 ^ c.degreeBits)] at hlarge ⊢
    have hcount : q < c.counts.numPolys := Nat.lt_of_mul_lt_mul_right (not_le.mp hlarge)
    exact Nat.mul_le_mul_right _ (by omega)
  set last := c.counts.numPolys - 1 with hlast
  have hsource : c.openingConfig.source last = last := c.source_of_lt (by omega)
  have hentry := hcovers last (by simp only [openingConfig]; omega)
  rw [hsource] at hentry
  obtain ⟨x, hx, haddr⟩ := hentry.exists_eq (le_refl _)
    (Nat.mul_lt_mul_of_pos_right (Nat.lt_succ_self _) (Nat.two_pow_pos _))
  obtain ⟨hid, hj⟩ := List.mem_product.mp hx
  have hid : x.1 / tileO = last := of_decide_eq_true (List.mem_filter.mp hid).2
  have hread : c.openingConfig.readAddress (2 ^ c.degreeBits) x = c.openingConfig.start last +
      (u32 (x.1 % tileO * (2 ^ c.degreeBits / tileO)) + x.2) := by
    have hfirst : last < c.openingConfig.numPolys := by
      simp only [openingConfig]
      omega
    simp only [OpeningConfig.readAddress, hid, if_pos hfirst, OpeningConfig.start, hsource, add_assoc]
    rfl
  have hlocal : u32 (x.1 % tileO * (2 ^ c.degreeBits / tileO)) + x.2 < 2 ^ c.degreeBits := by
    have hseg : x.1 % tileO < tileO := Nat.mod_lt _ (by decide)
    have hstep : x.2 < 2 ^ c.degreeBits / tileO := List.mem_range.mp hj
    calc u32 (x.1 % tileO * (2 ^ c.degreeBits / tileO)) + x.2
        ≤ x.1 % tileO * (2 ^ c.degreeBits / tileO) + x.2 :=
          Nat.add_le_add_right (Nat.mod_le _ _) _
      _ < (x.1 % tileO + 1) * (2 ^ c.degreeBits / tileO) := by
          rw [Nat.succ_mul]
          omega
      _ ≤ tileO * (2 ^ c.degreeBits / tileO) := Nat.mul_le_mul_right _ hseg
      _ ≤ 2 ^ c.degreeBits := Nat.mul_div_le _ _
  have hbelow := start_last_lt hlt hwrap hlocal
  rw [← hlast, ← hread, haddr] at hbelow
  exact absurd hbelow (lt_irrefl _)

/-- All launches cover their arrays for degrees from 1024 on, if the coefficients of all polynomials
have 32-bit numbers. -/
theorem launchesCover_iff :
    c.LaunchesCover ↔ 10 ≤ c.degreeBits ∧ c.counts.numPolys * 2 ^ c.degreeBits ≤ 2 ^ 32 := by
  constructor
  · intro h
    have hpolys := c.four_le_numPolys
    have hreverse := h.reverse 1 zero_lt_one (by omega)
    have hdegree := le_of_reversesIndexBits hreverse
    obtain ⟨-, degree, -, hshl, -⟩ := hreverse.covers
    have hlt : c.degreeBits < 32 := by
      by_contra hge
      rw [shlUnsigned, if_neg hge] at hshl
      cases hshl
    exact ⟨hdegree, size_le_of_opensTiles hlt h.openings⟩
  · rintro ⟨hdegree, hsize⟩
    obtain ⟨hcount, hlt, hfit⟩ := fits_of_size hdegree hsize
    have hchallenges := c.numChallenges_le
    have harrays : ∀ n ≤ c.counts.numPolys, n * 2 ^ c.degreeBits ≤ 2 ^ 32 :=
      fun n hn => (Nat.mul_le_mul_right _ hn).trans hsize
    constructor
    · exact fun n hpos hn => reversesIndexBits_of_le hdegree hlt hpos (harrays n hn)
    · exact fun n hpos hn => (multipliesByPowers_iff hlt hpos (harrays n hn)).mpr (by omega)
    · exact (padsCosetExt_iff hlt).mpr (by omega)
    · exact OpeningConfig.opensTiles_of_le hfit hsize
    · exact (fpDivides_iff hlt).mpr (by omega)
    · exact (shiftAdds_iff hlt (by omega)).mpr (by omega)
    · exact (shiftAdds_iff hlt (by omega)).mpr (by omega)

end CommonCircuitData

/-- The standard recursion configuration with 32 rows. -/
def smallRecursion : CommonCircuitData where
  numWires := 135
  numRoutedWires := 80
  numChallenges := 2
  maxQuotientDegreeFactor := 8
  zeroKnowledge := false
  rateBits := 3
  capHeight := 4
  numQueryRounds := 28
  degreeBits := 5
  reductionArityBits := []
  numConstants := 4
  numPublicInputs := 4
  numLookupPolys := 0
  arities_le := by decide
  quotientDegree_pow := standardQuotientDegree
  four_le_routed := standardRoutedWires
  lde_le := by decide

/-- Its arrays are smaller than a tile of `reverse_index_bits_inplace`. -/
theorem not_launchesCover_smallRecursion : ¬ smallRecursion.LaunchesCover := by
  intro h
  have hdegree : 10 ≤ 5 := le_of_reversesIndexBits (h.reverse 1 (by decide) (by decide))
  exact absurd hdegree (by decide)

end MegaZK
