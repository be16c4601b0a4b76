import MegaZK.Query.Scratch

/-! # The leaves of the queries

The two kernels for the leaves of an oracle give the values of the coset LDEs that its Merkle tree
commits to. -/

namespace MegaZK

open Grid Horner Scatter

variable {F : Type}

/-! ### The coset LDE -/

/-- `primitive_root_of_unity`: the generator of the group of order `2 ^ 32`, squared. -/
def primitiveRootOfUnity [CommSemiring F] (nLog : ℕ) : F :=
  (1753635133440165772 : F) ^ 2 ^ (32 - nLog)

/-- The values of a polynomial of degree below `2 ^ degreeBits` on the coset of the group of order
`2 ^ bits`; padding with zero coefficients does not change them. -/
def cosetFft [CommSemiring F] (coeffs : ℕ → F) (degreeBits bits i : ℕ) : F :=
  evalSum coeffs (2 ^ degreeBits) (primitiveRootOfUnity bits ^ i * 7)

/-- The committed order of the LDE: position `x` holds the value with the reversed index. -/
def cosetLde [CommSemiring F] (coeffs : ℕ → F) (degreeBits bits x : ℕ) : F :=
  cosetFft coeffs degreeBits bits (reverseBits x bits)

lemma queryPoint_eq [CommSemiring F] (bits x : ℕ) :
    (queryPoint bits x : F) = primitiveRootOfUnity bits ^ reverseBits x bits * 7 := by
  rw [queryPoint, powBits_eq, squareTimes_eq, Nat.mod_eq_of_lt (reverseBits_lt x bits), one_mul]
  rfl

/-! ### The kernels -/

/-- Storing indices modulo `n` keeps them modulo `n`. -/
lemma scatter_mod {ι : Type} (l : List ι) (dst : ι → ℕ) (n : ℕ) (xs : ℕ → ℕ) (q : ℕ) :
    scatter l dst (fun t => xs (dst t) % n) xs q % n = xs q % n := by
  by_cases hex : ∃ t ∈ l, dst t = q
  · have hwritten : scatter l dst (fun t => xs (dst t) % n) xs q = xs q % n := by
      apply scatter_of_forall_eq xs hex
      intro t _ ht
      rw [ht]
    rw [hwritten, Nat.mod_mod]
  · rw [scatter_of_forall_ne xs fun t ht heq => hex ⟨t, ht, heq⟩]

lemma shlInt_of_lt {k : ℕ} (hk : k < 31) : shlInt k = some (2 ^ k) := if_pos hk

lemma tileLen_of_lt {k : ℕ} (hk : k < 31) : tileLen k = some (2 ^ k / tileO) := if_pos hk

section Kernels

variable [CommSemiring F] {numQuerys numPolys numLdes logN rateBits : ℕ}

/-- Block `p * num_querys + q` leaves the values of the tiles of column `p` at the point of query
`q`. -/
lemma friInitialLeavesSeg_spec (inputs : ℕ → F) (buffer : DeviceBuffer F) (xIndexes : ℕ → ℕ)
    (hpos : 0 < numQuerys * numPolys) (hfits : numQuerys * numPolys * tileO ≤ 2 ^ 32)
    (hlen : numQuerys * numPolys * tileO ≤ buffer.len) (hbits : logN + rateBits ≤ 30) :
    ∃ buffer' xIndexes',
      friInitialLeavesSeg inputs buffer xIndexes (numQuerys * numPolys) numQuerys numPolys logN
        rateBits = some (buffer', xIndexes') ∧
      (∀ q, xIndexes' q % 2 ^ (logN + rateBits) = xIndexes q % 2 ^ (logN + rateBits)) ∧
      ∀ p < numPolys, ∀ q < numQuerys, ∀ s < tileO,
        buffer'.cell ((p * numQuerys + q) * tileO + s) =
          evalSum (fun j => inputs (p * 2 ^ logN + s * (2 ^ logN / tileO) + j)) (2 ^ logN / tileO)
            (queryPoint (logN + rateBits) (xIndexes q % 2 ^ (logN + rateBits))) := by
  have hsmall : numQuerys * numPolys ≤ 2 ^ 26 := by
    unfold tileO at hfits
    omega
  have hvalid : ValidLaunch 1 (numQuerys * numPolys) tileO := by
    refine ⟨by decide, ⟨hpos, by omega⟩, by decide, by decide⟩
  have hths := segThreads_of_valid hvalid (u32_of_lt (x := numQuerys * numPolys) (by omega))
  have hflat : ∀ th ∈ threads 1 (numQuerys * numPolys) tileO,
      th.flat (numQuerys * numPolys) tileO < numQuerys * numPolys * tileO := by
    intro th hth
    simpa using Thread.flat_lt hth
  have haddr : ∀ th ∈ threads 1 (numQuerys * numPolys) tileO,
      segAddress th = th.flat (numQuerys * numPolys) tileO := by
    intro th hth
    have hy : th.y = 0 := Nat.lt_one_iff.mp (mem_threads.mp hth).1
    have hlt := hflat th hth
    rw [Thread.flat, hy, Nat.zero_mul, Nat.zero_add] at hlt ⊢
    exact u32_of_lt (hlt.trans_le hfits)
  obtain ⟨buffer', hstore, -, hcell, -⟩ := buffer.store_spec
    (l := threads 1 (numQuerys * numPolys) tileO) (fun th => (segAddress th : ℤ))
    (fun th => horner (fun j => inputs (th.x / numQuerys * 2 ^ logN +
      u32 (th.t * (2 ^ logN / tileO)) + j)) (2 ^ logN / tileO)
      (queryPoint (logN + rateBits) (xIndexes (th.x % numQuerys) % 2 ^ (logN + rateBits))))
    (Thread.flat (numQuerys * numPolys) tileO)
    (fun th hth => by rw [haddr th hth])
    (fun th hth => (hflat th hth).trans_le hlen)
    (fun th hth th' hth' heq => Thread.flat_inj hth' hth heq)
  refine ⟨buffer', scatter ((threads 1 (numQuerys * numPolys) tileO).filter
    fun th => th.x / numQuerys = 0 ∧ th.t = 0) (fun th => th.x % numQuerys)
    (fun th => xIndexes (th.x % numQuerys) % 2 ^ (logN + rateBits)) xIndexes, ?_, ?_, ?_⟩
  · simp only [friInitialLeavesSeg, hths, shlInt_of_lt (show logN < 31 by omega),
      shlInt_of_lt (show logN + rateBits < 31 by omega),
      tileLen_of_lt (show logN < 31 by omega), Option.bind_eq_bind, Option.bind_some, hstore,
      Except.toOption]
    rfl
  · intro q
    exact scatter_mod _ _ _ xIndexes q
  · intro p hp q hq s hs
    have hblock : p * numQuerys + q < numQuerys * numPolys := by
      calc p * numQuerys + q < (p + 1) * numQuerys := by rw [Nat.succ_mul]; omega
        _ ≤ numPolys * numQuerys := Nat.mul_le_mul_right _ hp
        _ = numQuerys * numPolys := Nat.mul_comm _ _
    have hmem : (⟨0, p * numQuerys + q, s⟩ : Thread) ∈
        threads 1 (numQuerys * numPolys) tileO := mem_threads.mpr ⟨Nat.one_pos, hblock, hs⟩
    have hq0 : 0 < numQuerys := by omega
    have hdiv : (p * numQuerys + q) / numQuerys = p := by
      rw [Nat.mul_comm, Nat.mul_add_div hq0, Nat.div_eq_of_lt hq, Nat.add_zero]
    have hmod : (p * numQuerys + q) % numQuerys = q := by
      rw [Nat.mul_comm, Nat.mul_add_mod, Nat.mod_eq_of_lt hq]
    have htile_lt : s * (2 ^ logN / tileO) < 2 ^ 32 := by
      calc s * (2 ^ logN / tileO) ≤ tileO * (2 ^ logN / tileO) := Nat.mul_le_mul_right _ hs.le
        _ ≤ 2 ^ logN := Nat.mul_div_le _ _
        _ < 2 ^ 32 := Nat.pow_lt_pow_right (by norm_num) (by omega)
    have hvalue := hcell _ hmem
    simp only [Thread.flat, Nat.zero_mul, Nat.zero_add, hdiv, hmod, u32_of_lt htile_lt,
      horner_eq] at hvalue
    exact hvalue

/-- The threads that store are numbered by the cells of the output. -/
lemma reduceIds_spec (hpos : 0 < numQuerys * numPolys)
    (hfits : numQuerys * numPolys ≤ 2 ^ 32 - 32) :
    ∃ ids, reduceIds (u32 (u32 (numQuerys * numPolys) + 32 - 1) / 32) numQuerys numPolys = some ids ∧
      ∀ gId, gId ∈ ids ↔ gId < numQuerys * numPolys := by
  have hmul : u32 (numQuerys * numPolys) = numQuerys * numPolys := u32_of_lt (by omega)
  have hblocks : u32 (numQuerys * numPolys + 32 - 1) / 32 = (numQuerys * numPolys + 31) / 32 := by
    rw [u32_of_lt (by omega)]
    rfl
  rw [hmul, hblocks]
  generalize htotal : numQuerys * numPolys = total at *
  have hvalid : ValidLaunch 1 ((total + 31) / 32) 32 := by
    refine ⟨by decide, ⟨by omega, by omega⟩, by decide, by decide⟩
  refine ⟨((threads 1 ((total + 31) / 32) 32).map fun th => u32 (th.x * 32 + th.t)).filter
    fun gId => gId < total, ?_, ?_⟩
  · simp [reduceIds, launch_of_valid hvalid, Except.toOption, htotal, hmul]
  · intro gId
    simp only [List.mem_filter, List.mem_map, mem_threads, decide_eq_true_eq]
    constructor
    · rintro ⟨-, hlt⟩
      exact hlt
    · intro hlt
      refine ⟨⟨⟨0, gId / 32, gId % 32⟩, ⟨Nat.one_pos, ?_, ?_⟩, ?_⟩, hlt⟩
      · dsimp only
        omega
      · exact Nat.mod_lt _ (by norm_num)
      · dsimp only
        rw [Nat.div_add_mod', u32_of_lt (by omega)]

/-- The partial sums of column `p` and query `q` start at the tiles of its block. -/
lemma tileStart_eq {p q : ℕ} (hp : numLdes ≤ p) (hq : q < numQuerys)
    (hfits : numQuerys * numPolys ≤ 2 ^ 32 - 32) (hlt : p < numPolys)
    (htiles : numQuerys * (numPolys - numLdes) * tileO ≤ 2 ^ 32) :
    u32 (u32 (p * numQuerys + q + 2 ^ 32 - u32 (numLdes * numQuerys)) * tileO) =
      ((p - numLdes) * numQuerys + q) * tileO := by
  obtain ⟨d, rfl⟩ := Nat.exists_eq_add_of_le hp
  obtain ⟨e, rfl⟩ := Nat.exists_eq_add_of_lt hlt
  have hresident : numLdes * numQuerys ≤ numQuerys * (numLdes + d + e + 1) := by
    rw [Nat.mul_comm]
    exact Nat.mul_le_mul_left _ (by omega)
  have hblock : d * numQuerys + q < numQuerys * (d + e + 1) := by
    calc d * numQuerys + q < (d + 1) * numQuerys := by rw [Nat.succ_mul]; omega
      _ ≤ (d + e + 1) * numQuerys := Nat.mul_le_mul_right _ (by omega)
      _ = numQuerys * (d + e + 1) := Nat.mul_comm _ _
  have hcount : numLdes + d + e + 1 - numLdes = d + e + 1 := by omega
  have hcol : numLdes + d - numLdes = d := by omega
  rw [hcount, tileO] at htiles
  rw [u32_of_lt (x := numLdes * numQuerys) (by omega), hcol, tileO]
  have hinner : u32 ((numLdes + d) * numQuerys + q + 2 ^ 32 - numLdes * numQuerys) =
      d * numQuerys + q := by
    have hsub : (numLdes + d) * numQuerys + q + 2 ^ 32 - numLdes * numQuerys =
        d * numQuerys + q + 2 ^ 32 := by
      rw [Nat.add_mul]
      omega
    rw [hsub, u32, Nat.add_mod_right]
    exact Nat.mod_eq_of_lt (by omega)
  rw [hinner]
  exact u32_of_lt (by omega)

lemma two_pow_div_tileO (hdegree : 6 ≤ logN) : 2 ^ logN / tileO = 2 ^ (logN - 6) := by
  rw [tileO, show 64 = 2 ^ 6 from rfl]
  exact Nat.pow_div hdegree (by norm_num)

/-- Every leaf: a resident column is looked up, the tiles of another are put together. -/
lemma friInitialLeavesReducePartial_spec (numLdes : ℕ) (ldes : ℕ → F) (buffer leave : DeviceBuffer F)
    (xIndexes : ℕ → ℕ) (hpos : 0 < numQuerys * numPolys)
    (hfits : numQuerys * numPolys ≤ 2 ^ 32 - 32)
    (htiles : numQuerys * (numPolys - numLdes) * tileO ≤ 2 ^ 32)
    (hlen : numQuerys * numPolys ≤ leave.len) (hdegree : 6 ≤ logN) (hbits : logN + rateBits ≤ 30) :
    ∃ leave' xIndexes',
      friInitialLeavesReducePartial ldes buffer leave xIndexes
        (u32 (u32 (numQuerys * numPolys) + 32 - 1) / 32) numQuerys numPolys numLdes logN rateBits =
        some (leave', xIndexes') ∧ leave'.len = leave.len ∧
      (∀ q, xIndexes' q % 2 ^ (logN + rateBits) = xIndexes q % 2 ^ (logN + rateBits)) ∧
      ∀ p < numPolys, ∀ q < numQuerys,
        leave'.cell (q * numPolys + p) =
          if p < numLdes then
            ldes (p * 2 ^ (logN + rateBits) + xIndexes q % 2 ^ (logN + rateBits))
          else
            evalSum (fun s => buffer.cell (((p - numLdes) * numQuerys + q) * tileO + s)) tileO
              (queryPoint (logN + rateBits) (xIndexes q % 2 ^ (logN + rateBits)) ^
                (2 ^ logN / tileO)) := by
  have hqueries : 0 < numQuerys := Nat.pos_of_mul_pos_right hpos
  obtain ⟨ids, hids, hmem⟩ := reduceIds_spec hpos hfits
  have hsplit : ∀ gId ∈ ids, gId % numQuerys < numQuerys ∧ gId / numQuerys < numPolys ∧
      gId % numQuerys * numPolys + gId / numQuerys < numQuerys * numPolys := by
    intro gId hgId
    have hq := Nat.mod_lt gId hqueries
    have hp : gId / numQuerys < numPolys := Nat.div_lt_of_lt_mul ((hmem gId).mp hgId)
    refine ⟨hq, hp, ?_⟩
    calc gId % numQuerys * numPolys + gId / numQuerys
        < (gId % numQuerys + 1) * numPolys := by rw [Nat.succ_mul]; omega
      _ ≤ numQuerys * numPolys := Nat.mul_le_mul_right _ hq
  obtain ⟨leave', hstore, hlen', hcell, -⟩ := leave.store_spec (l := ids)
    (fun gId => (leafAddress numPolys (gId % numQuerys) (gId / numQuerys) : ℤ))
    (fun gId =>
      if gId / numQuerys < numLdes then
        ldes (gId / numQuerys * 2 ^ (logN + rateBits) +
          xIndexes (gId % numQuerys) % 2 ^ (logN + rateBits))
      else
        horner (fun j => buffer.cell
          (u32 (u32 (gId + 2 ^ 32 - u32 (numLdes * numQuerys)) * tileO) + j)) tileO
          (squareWhile (2 ^ logN / tileO) 32 1 (queryPoint (logN + rateBits)
            (xIndexes (gId % numQuerys) % 2 ^ (logN + rateBits)))))
    (fun gId => gId % numQuerys * numPolys + gId / numQuerys)
    (fun gId hgId => by rw [leafAddress, u32_of_lt (by have := hsplit gId hgId; omega)])
    (fun gId hgId => (hsplit gId hgId).2.2.trans_le hlen)
    (fun gId hgId gId' hgId' heq => by
      obtain ⟨hdiv, hmod⟩ := stride_inj (hsplit gId' hgId').2.1 (hsplit gId hgId).2.1
        (by rw [Nat.add_comm, heq, Nat.add_comm])
      rw [← Nat.div_add_mod gId numQuerys, ← Nat.div_add_mod gId' numQuerys, hdiv, hmod])
  refine ⟨leave', scatter ids (fun gId => gId % numQuerys)
    (fun gId => xIndexes (gId % numQuerys) % 2 ^ (logN + rateBits)) xIndexes, ?_, hlen', ?_, ?_⟩
  · simp only [friInitialLeavesReducePartial, hids,
      shlInt_of_lt (show logN + rateBits < 31 by omega),
      tileLen_of_lt (show logN < 31 by omega), Option.bind_eq_bind, Option.bind_some, hstore,
      Except.toOption]
    rfl
  · intro q
    exact scatter_mod _ _ _ xIndexes q
  · intro p hp q hq
    have hdiv : (p * numQuerys + q) / numQuerys = p := by
      rw [Nat.mul_comm, Nat.mul_add_div hqueries, Nat.div_eq_of_lt hq, Nat.add_zero]
    have hmod : (p * numQuerys + q) % numQuerys = q := by
      rw [Nat.mul_comm, Nat.mul_add_mod, Nat.mod_eq_of_lt hq]
    have hlt : p * numQuerys + q < numQuerys * numPolys := by
      calc p * numQuerys + q < (p + 1) * numQuerys := by rw [Nat.succ_mul]; omega
        _ ≤ numPolys * numQuerys := Nat.mul_le_mul_right _ hp
        _ = numQuerys * numPolys := Nat.mul_comm _ _
    have hvalue := hcell _ ((hmem _).mpr hlt)
    simp only [hdiv, hmod, horner_eq] at hvalue
    rw [hvalue]
    split_ifs with hres
    · rfl
    · have hstart : u32 (u32 (p * numQuerys + q + 2 ^ 32 - u32 (numLdes * numQuerys)) * tileO) =
          ((p - numLdes) * numQuerys + q) * tileO :=
        tileStart_eq (by omega) hq hfits hp htiles
      rw [hstart, two_pow_div_tileO hdegree, squareWhile_one (by omega)]

end Kernels

/-! ### The leaves of an oracle -/

/-- Column `p` of a segment, by its coefficients. -/
def CommonCircuitData.column (c : CommonCircuitData) (inputs : QueryInputs F) (seg : PolySegment)
    (p j : ℕ) : F :=
  inputs.fpInputs (2 ^ c.degreeBits * c.counts.offset seg + p * 2 ^ c.degreeBits + j)

namespace PolyLayout

variable {c : CommonCircuitData} (layout : PolyLayout c)

/-- The resident columns of a segment hold the LDEs that were committed. -/
def ResidentLdes [CommSemiring F] (inputs : QueryInputs F) (seg : PolySegment) : Prop :=
  ∀ p < layout.numLdes seg, ∀ x < 2 ^ c.ldeBits,
    inputs.ldes (layout.ldeOffset seg + (p * 2 ^ c.ldeBits + x)) =
      cosetLde (c.column inputs seg p) c.degreeBits c.ldeBits x

/-- The leaves of every oracle are the committed ones, whatever the buffers held before, and the
words of the indices stay the same modulo the size of the LDE. -/
def LeavesCommitted (F : Type) [CommSemiring F] : Prop :=
  ∀ (seg : PolySegment) (inputs : QueryInputs F) (scratch leave : DeviceBuffer F)
    (xIndexes : ℕ → ℕ), layout.ResidentLdes inputs seg → scratch.len = c.friBufLen →
    leave.len = c.counts.count seg * c.numQueryRounds →
    ∃ scratch' leave' xIndexes',
      layout.leavesRound inputs scratch leave xIndexes seg = some (scratch', leave', xIndexes') ∧
      leave'.len = leave.len ∧
      (∀ q, xIndexes' q % 2 ^ c.ldeBits = xIndexes q % 2 ^ c.ldeBits) ∧
      ∀ q < c.numQueryRounds, ∀ p < c.counts.count seg,
        leave'.cell (q * c.counts.count seg + p) =
          cosetLde (c.column inputs seg p) c.degreeBits c.ldeBits (xIndexes q % 2 ^ c.ldeBits)

/-- The sizes for which no launch is refused, no number wraps and the partial sums fit. -/
structure LeavesFit : Prop where
  queries_pos : 0 < c.numQueryRounds
  lde_le : c.ldeBits ≤ 30
  count_pos : ∀ seg, 0 < c.counts.count seg
  count_fits : ∀ seg, c.numQueryRounds * c.counts.count seg ≤ 2 ^ 32 - 32
  tiles_fit : ∀ seg, c.numQueryRounds * layout.nonLdePolynomialCount seg ≤ 2 ^ 26
  scratch_fits : ∀ seg, layout.nonLdePolynomialCount seg ≤ c.numWires + 1

variable {layout}

/-- The tiles of a column that is not resident, put together. -/
lemma evalSum_tiles_column [CommSemiring F] (inputs : QueryInputs F) (seg : PolySegment) {p : ℕ}
    (hp : layout.numLdes seg ≤ p) (hdegree : 6 ≤ c.degreeBits) (z : F) :
    evalSum (fun s => evalSum (fun j => inputs.fpInputs (layout.fpOffsetAfterLdes seg +
      ((p - layout.numLdes seg) * 2 ^ c.degreeBits + s * (2 ^ c.degreeBits / tileO) + j)))
      (2 ^ c.degreeBits / tileO) z) tileO (z ^ (2 ^ c.degreeBits / tileO)) =
      evalSum (c.column inputs seg p) (2 ^ c.degreeBits) z := by
  have hoffset : ∀ i, inputs.fpInputs (layout.fpOffsetAfterLdes seg +
      ((p - layout.numLdes seg) * 2 ^ c.degreeBits + i)) = c.column inputs seg p i := by
    intro i
    obtain ⟨d, rfl⟩ := Nat.exists_eq_add_of_le hp
    rw [CommonCircuitData.column, fpOffsetAfterLdes, Nat.shiftLeft_eq, Nat.add_sub_cancel_left,
      Nat.add_mul]
    congr 1
    omega
  have hlen : tileO * (2 ^ c.degreeBits / tileO) = 2 ^ c.degreeBits := by
    apply Nat.mul_div_cancel'
    exact Nat.pow_dvd_pow 2 hdegree
  simp only [Nat.add_assoc ((p - layout.numLdes seg) * 2 ^ c.degreeBits), hoffset]
  rw [evalSum_tiles, hlen]

/-- The first launch of a round leaves the tiles of the columns that are not resident; without such
columns there is none. -/
lemma segStage_spec [CommSemiring F] (hfit : layout.LeavesFit) (seg : PolySegment)
    (inputs : QueryInputs F) (scratch : DeviceBuffer F) (xIndexes : ℕ → ℕ)
    (hscratch : scratch.len = c.friBufLen) :
    ∃ scratch' xIndexes',
      layout.segStage inputs scratch xIndexes seg = some (scratch', xIndexes') ∧
      (∀ q, xIndexes' q % 2 ^ c.ldeBits = xIndexes q % 2 ^ c.ldeBits) ∧
      ∀ p < layout.nonLdePolynomialCount seg, ∀ q < c.numQueryRounds, ∀ s < tileO,
        scratch'.cell ((p * c.numQueryRounds + q) * tileO + s) =
          evalSum (fun j => inputs.fpInputs (layout.fpOffsetAfterLdes seg +
            (p * 2 ^ c.degreeBits + s * (2 ^ c.degreeBits / tileO) + j)))
            (2 ^ c.degreeBits / tileO)
            (queryPoint c.ldeBits (xIndexes q % 2 ^ c.ldeBits)) := by
  by_cases hn : 0 < layout.nonLdePolynomialCount seg
  · have htiles := hfit.tiles_fit seg
    have hpos := Nat.mul_pos hfit.queries_pos hn
    have hqueries : u32 c.numQueryRounds = c.numQueryRounds :=
      u32_of_lt (by have := Nat.le_mul_of_pos_right c.numQueryRounds hn; omega)
    have hcolumns : u32 (layout.nonLdePolynomialCount seg) = layout.nonLdePolynomialCount seg :=
      u32_of_lt (by
        have := Nat.le_mul_of_pos_left (layout.nonLdePolynomialCount seg) hfit.queries_pos
        omega)
    have hblocks : c.segBlocks (layout.nonLdePolynomialCount seg) =
        c.numQueryRounds * layout.nonLdePolynomialCount seg := u32_of_lt (by omega)
    simp only [segStage, if_pos hn, hqueries, hcolumns, hblocks]
    refine friInitialLeavesSeg_spec _ scratch xIndexes hpos ?_ ?_ hfit.lde_le
    · unfold tileO
      omega
    · rw [hscratch, CommonCircuitData.friBufLen]
      exact Nat.mul_le_mul_right _ (Nat.mul_le_mul_left _ (hfit.scratch_fits seg))
  · refine ⟨scratch, xIndexes, if_neg hn, fun _ => rfl, ?_⟩
    intro p hp
    omega

/-- The leaves of all oracles are the committed ones when the launches of the circuit fit. -/
theorem leavesCommitted_of_fit [CommSemiring F] (hdegree : 6 ≤ c.degreeBits)
    (hfit : layout.LeavesFit) : layout.LeavesCommitted F := by
  intro seg inputs scratch leave xIndexes hresident hscratch hleave
  have hcount := hfit.count_fits seg
  have hpos := Nat.mul_pos hfit.queries_pos (hfit.count_pos seg)
  have hle := layout.numLdes_le seg
  have hqueries : u32 c.numQueryRounds = c.numQueryRounds := u32_of_lt (by
    have := Nat.le_mul_of_pos_right c.numQueryRounds (hfit.count_pos seg)
    omega)
  have hle_count := Nat.le_mul_of_pos_left (c.counts.count seg) hfit.queries_pos
  have hcolumns : u32 (c.counts.count seg) = c.counts.count seg := u32_of_lt (by omega)
  have hldes : u32 (layout.numLdes seg) = layout.numLdes seg := u32_of_lt (by omega)
  obtain ⟨scratch', xIndexes₁, hseg, hmod₁, htiles⟩ :=
    segStage_spec hfit seg inputs scratch xIndexes hscratch
  obtain ⟨leave', xIndexes₂, hreduce, hlen, hmod₂, hcell⟩ :=
    friInitialLeavesReducePartial_spec (layout.numLdes seg)
      (fun a => inputs.ldes (layout.ldeOffset seg + a)) scratch' leave xIndexes₁ hpos hcount
      (by
        have := hfit.tiles_fit seg
        unfold nonLdePolynomialCount at this
        unfold tileO
        omega)
      (by rw [hleave, Nat.mul_comm]) hdegree hfit.lde_le
  refine ⟨scratch', leave', xIndexes₂, ?_, hlen, ?_, ?_⟩
  · simp only [leavesRound, hqueries, hcolumns, hldes, hseg, Option.bind_eq_bind,
      Option.bind_some, CommonCircuitData.reduceBlocks, hreduce]
    rfl
  · intro q
    exact (hmod₂ q).trans (hmod₁ q)
  · intro q hq p hp
    rw [hcell p hp q hq]
    have hmod : xIndexes₁ q % 2 ^ (c.degreeBits + c.rateBits) = xIndexes q % 2 ^ c.ldeBits :=
      hmod₁ q
    rw [hmod]
    split_ifs with hres
    · exact hresident p hres _ (Nat.mod_lt _ (by positivity))
    · have hcol : p - layout.numLdes seg < layout.nonLdePolynomialCount seg := by
        unfold nonLdePolynomialCount
        omega
      rw [evalSum_congr fun s hs => htiles _ hcol q hq s hs]
      rw [cosetLde, cosetFft, ← queryPoint_eq]
      exact evalSum_tiles_column inputs seg (by omega) hdegree _

/-- A launch that does not fit the buffer stores outside it. -/
lemma segStage_eq_none [CommSemiring F] {seg : PolySegment} (hlaunch : layout.SegLaunch seg)
    (hfits : ¬ layout.SegFits seg) (inputs : QueryInputs F) {scratch : DeviceBuffer F}
    (xIndexes : ℕ → ℕ) (hscratch : scratch.len = c.friBufLen) :
    layout.segStage inputs scratch xIndexes seg = none := by
  have hnot := mt (layout.segStores_forall_lt_iff seg).mp fun h => hfits (h hlaunch)
  push Not at hnot
  obtain ⟨ths, hths, th, hth, hge⟩ := hnot
  simp only [segStores, if_pos hlaunch.1] at hths
  rw [← hscratch] at hge
  have herror : ∀ val : Thread → F, scratch.store ths (fun th => (segAddress th : ℤ)) val =
      .error .outOfBounds := by
    intro val
    exact DeviceBuffer.store_error hth (.inr (by exact_mod_cast hge))
  simp only [segStage, if_pos hlaunch.1, friInitialLeavesSeg, hths, herror, Except.toOption,
    Option.bind_eq_bind, Option.bind_some, Option.bind_none, Option.bind_fun_none]

end PolyLayout

/-- `standard_recursion_config` with `2 ^ 12` rows. -/
def standardRecursion : CommonCircuitData where
  numWires := 135
  numRoutedWires := 80
  numChallenges := 2
  maxQuotientDegreeFactor := 8
  zeroKnowledge := false
  rateBits := 3
  capHeight := 4
  numQueryRounds := 28
  degreeBits := 12
  reductionArityBits := [4, 4]
  numConstants := 4
  numPublicInputs := 4
  numLookupPolys := 0
  arities_le := standardArities
  quotientDegree_pow := standardQuotientDegree
  four_le_routed := standardRoutedWires
  lde_le := standardLde

/-- The standard configuration with all columns evaluated by the query kernels. -/
theorem PolyLayout.leavesCommitted_standardRecursion :
    (PolyLayout.withoutLdes standardRecursion).LeavesCommitted (ZMod goldilocksOrder) := by
  apply PolyLayout.leavesCommitted_of_fit
  · decide
  · constructor
    · decide
    · decide
    · intro seg
      cases seg <;> decide
    · intro seg
      cases seg <;> decide
    · intro seg
      cases seg <;> decide
    · intro seg
      cases seg <;> decide

/-- With 140 columns of constants and sigmas the partial sums leave their buffer. -/
theorem PolyLayout.not_leavesCommitted_allWiresRouted :
    ¬ (PolyLayout.withoutLdes allWiresRouted).LeavesCommitted (ZMod goldilocksOrder) := by
  intro h
  have hlaunch : (PolyLayout.withoutLdes allWiresRouted).SegLaunch .constantsSigmas := by
    unfold PolyLayout.SegLaunch
    decide
  have hfits : ¬ (PolyLayout.withoutLdes allWiresRouted).SegFits .constantsSigmas := by
    unfold PolyLayout.SegFits
    decide
  obtain ⟨_, _, _, hround, -⟩ := h .constantsSigmas ⟨fun _ => 0, fun _ => 0, fun _ _ => 0⟩
    ⟨allWiresRouted.friBufLen, fun _ => 0⟩
    ⟨allWiresRouted.counts.count .constantsSigmas * allWiresRouted.numQueryRounds, fun _ => 0⟩
    (fun _ => 0) (fun _ hp => absurd hp (Nat.not_lt_zero _)) rfl rfl
  rw [PolyLayout.leavesRound, PolyLayout.segStage_eq_none hlaunch hfits _ _ rfl] at hround
  exact absurd hround (by simp)

end MegaZK
