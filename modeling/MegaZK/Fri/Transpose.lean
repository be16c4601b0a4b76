import MegaZK.Tiles.MulExp

/-! # Transposition

`batch_transpose`: a block takes a tile of 32 times 32 words, and every thread of it one row of the
tile. -/

namespace MegaZK

open Grid Cover

variable {F : Type}

/-! ### Source -/

/-- `TILLE`. -/
def transposeTile : ℕ := 32

/-- `blocks_col` of the kernel, with `LOG_TILE` for the tile. -/
def transposeBlocksCol (logN : ℕ) : ℕ := 1 <<< (logN - 5)

/-- The first row of a block. -/
def transposeRow (logN : ℕ) (th : Thread) : ℕ :=
  u32 (th.x / transposeBlocksCol logN * transposeTile)

/-- The first column of a block. -/
def transposeCol (logN : ℕ) (th : Thread) : ℕ :=
  u32 (th.x % transposeBlocksCol logN * transposeTile)

/-- The threads that have a row, with the columns of their tiles. -/
def transposeStores (logN numNtts : ℕ) (ths : List Thread) : List (Thread × ℕ) :=
  (ths.filter fun th => u32 (transposeRow logN th + th.t) < numNtts) ×ˢ List.range transposeTile

def transposeSrc (logN : ℕ) (x : Thread × ℕ) : ℕ :=
  u32 ((transposeRow logN x.1 + x.1.t) <<< logN) + transposeCol logN x.1 + x.2

def transposeDst (logN numNtts : ℕ) (x : Thread × ℕ) : ℕ :=
  u32 (transposeCol logN x.1 * numNtts) + transposeRow logN x.1 + x.1.t + u32 (x.2 * numNtts)

/-- The threads that `batch_transpose` launches. -/
def transposeThreads (logN numNtts : ℕ) : Option (List Thread) :=
  let threads := 32
  let blocksRow := u32 (numNtts + threads - 1) / threads
  let blocksCol := hostDegree logN / threads
  (launch 1 (u32 (blocksRow * blocksCol)) threads).toOption

/-- `batch_transpose`: `num_ntts` rows of `2 ^ log_n` words. -/
def batchTranspose (logN numNtts : ℕ) (input : ℕ → F) (b : DeviceBuffer F) :
    Option (DeviceBuffer F) := do
  let ths ← transposeThreads logN numNtts
  b.storeAll ((transposeStores logN numNtts ths).map fun x =>
    (transposeDst logN numNtts x, input (transposeSrc logN x)))

/-! ### Launches -/

/-- Rows shorter than a tile give no blocks. -/
lemma transposeThreads_of_lt {logN : ℕ} (h : logN < 5 ∨ 32 ≤ logN ∧ logN < 37) (numNtts : ℕ) :
    transposeThreads logN numNtts = none := by
  have hlow : logN % 32 < 5 := by omega
  have hpow : 2 ^ (logN % 32) < 2 ^ 5 := Nat.pow_lt_pow_right (by decide) hlow
  have hdegree : hostDegree logN / 32 = 0 := by
    rw [hostDegree, Nat.one_shiftLeft, u32_of_lt (by omega)]
    exact Nat.div_eq_of_lt hpow
  have hzero : u32 (u32 (numNtts + 32 - 1) / 32 * 0) = 0 := by
    rw [Nat.mul_zero]
    rfl
  have hinvalid : ¬ValidLaunch 1 0 32 := by decide
  simp only [transposeThreads, hdegree, hzero, launch, if_neg hinvalid]
  rfl

section Tiles

variable {k numNtts : ℕ} (hk : k < 27)

lemma transposeBlocksCol_eq (k : ℕ) : transposeBlocksCol (k + 5) = 2 ^ k := by
  rw [transposeBlocksCol, Nat.one_shiftLeft]
  rfl

lemma two_pow_columns (k : ℕ) : 2 ^ (k + 5) = 2 ^ k * 32 := pow_add 2 k 5

include hk

lemma transposeThreads_eq (hpos : 0 < numNtts) (hrows : numNtts ≤ 2 ^ 32 - 32)
    (hgrid : (numNtts + 31) / 32 * 2 ^ k < 2 ^ 31) :
    transposeThreads (k + 5) numNtts = some (threads 1 ((numNtts + 31) / 32 * 2 ^ k) 32) := by
  have hpow : 2 ^ k ≤ 2 ^ 26 := Nat.pow_le_pow_right (by decide) (by omega)
  have hcol : hostDegree (k + 5) / 32 = 2 ^ k := by
    rw [hostDegree, Nat.mod_eq_of_lt (by omega), Nat.one_shiftLeft, two_pow_columns,
      u32_of_lt (by omega)]
    omega
  have hrow : u32 (numNtts + 32 - 1) / 32 = (numNtts + 31) / 32 := by
    rw [u32_of_lt (by omega)]
    rfl
  have hblocks : 0 < (numNtts + 31) / 32 * 2 ^ k :=
    Nat.mul_pos (by omega) (Nat.two_pow_pos k)
  have hvalid : ValidLaunch 1 ((numNtts + 31) / 32 * 2 ^ k) 32 := by
    refine ⟨⟨by decide, by decide⟩, ⟨hblocks, hgrid⟩, by decide, by decide⟩
  simp only [transposeThreads, hcol, hrow]
  rw [u32_of_lt (by omega), launch_of_valid hvalid]
  rfl

lemma transposeCol_eq (th : Thread) : transposeCol (k + 5) th = th.x % 2 ^ k * 32 := by
  have hpow : 2 ^ k ≤ 2 ^ 26 := Nat.pow_le_pow_right (by decide) (by omega)
  have hcol : th.x % 2 ^ k < 2 ^ k := Nat.mod_lt _ (Nat.two_pow_pos k)
  rw [transposeCol, transposeBlocksCol_eq, transposeTile, u32_of_lt (by omega)]

omit hk in
lemma transposeRow_eq (hrows : numNtts ≤ 2 ^ 31) {th : Thread}
    (hx : th.x < (numNtts + 31) / 32 * 2 ^ k) :
    transposeRow (k + 5) th = th.x / 2 ^ k * 32 := by
  have hrow : th.x / 2 ^ k < (numNtts + 31) / 32 := Nat.div_lt_of_lt_mul (by rwa [mul_comm])
  rw [transposeRow, transposeBlocksCol_eq, transposeTile, u32_of_lt (by omega)]

omit hk in
/-- The blocks and threads of the stores. -/
lemma mem_transposeStores (hrows : numNtts ≤ 2 ^ 31) {x : Thread × ℕ} :
    x ∈ transposeStores (k + 5) numNtts (threads 1 ((numNtts + 31) / 32 * 2 ^ k) 32) ↔
      (x.1.y < 1 ∧ x.1.x < (numNtts + 31) / 32 * 2 ^ k ∧ x.1.t < 32) ∧
        x.1.x / 2 ^ k * 32 + x.1.t < numNtts ∧ x.2 < 32 := by
  obtain ⟨th, i⟩ := x
  rw [transposeStores, List.mem_product, List.mem_filter, mem_threads, List.mem_range,
    decide_eq_true_iff, and_assoc]
  refine and_congr_right fun h => and_congr_left fun _ => ?_
  have hrow : th.x / 2 ^ k < (numNtts + 31) / 32 := Nat.div_lt_of_lt_mul (by
    rw [mul_comm]
    exact h.2.1)
  have ht : th.t < 32 := h.2.2
  rw [transposeRow_eq hrows h.2.1, u32_of_lt (by omega)]

lemma transposeDst_eq (hpos : 0 < numNtts) (hrows : numNtts ≤ 2 ^ 31)
    (hsize : numNtts * (2 ^ k * 32) ≤ 2 ^ 32) {x : Thread × ℕ}
    (hx : x.1.x < (numNtts + 31) / 32 * 2 ^ k) (hi : x.2 < 32) :
    transposeDst (k + 5) numNtts x =
      (x.1.x % 2 ^ k * 32 + x.2) * numNtts + (x.1.x / 2 ^ k * 32 + x.1.t) := by
  have hcol : x.1.x % 2 ^ k < 2 ^ k := Nat.mod_lt _ (Nat.two_pow_pos k)
  have hfits : (x.1.x % 2 ^ k * 32 + x.2) * numNtts < 2 ^ 32 := by
    calc (x.1.x % 2 ^ k * 32 + x.2) * numNtts < 2 ^ k * 32 * numNtts :=
          Nat.mul_lt_mul_of_pos_right (by omega) hpos
      _ ≤ 2 ^ 32 := by rwa [mul_comm]
  rw [add_mul] at hfits ⊢
  rw [transposeDst, transposeCol_eq hk, transposeRow_eq hrows hx, u32_of_lt (by omega),
    u32_of_lt (by omega)]
  omega

lemma transposeSrc_eq (hrows : numNtts ≤ 2 ^ 31) (hsize : numNtts * (2 ^ k * 32) ≤ 2 ^ 32)
    {x : Thread × ℕ} (hx : x.1.x < (numNtts + 31) / 32 * 2 ^ k)
    (hrow : x.1.x / 2 ^ k * 32 + x.1.t < numNtts) :
    transposeSrc (k + 5) x =
      (x.1.x / 2 ^ k * 32 + x.1.t) * 2 ^ (k + 5) + (x.1.x % 2 ^ k * 32 + x.2) := by
  have hfits : (x.1.x / 2 ^ k * 32 + x.1.t) * 2 ^ (k + 5) < 2 ^ 32 := by
    rw [two_pow_columns]
    exact (Nat.mul_lt_mul_of_pos_right hrow (by positivity)).trans_le hsize
  rw [transposeSrc, transposeCol_eq hk, transposeRow_eq hrows hx, Nat.shiftLeft_eq,
    u32_of_lt hfits, add_assoc]

/-- The stores cover the columns, one after the other. -/
lemma covers_transposeDst (hpos : 0 < numNtts) (hrows : numNtts ≤ 2 ^ 31)
    (hsize : numNtts * (2 ^ k * 32) ≤ 2 ^ 32) :
    Covers (transposeStores (k + 5) numNtts (threads 1 ((numNtts + 31) / 32 * 2 ^ k) 32))
      (transposeDst (k + 5) numNtts) 0 (2 ^ k * 32 * numNtts) := by
  have htwo : 0 < 2 ^ k := Nat.two_pow_pos k
  rw [covers_congr (f := fun x =>
    (x.1.x % 2 ^ k * 32 + x.2) * numNtts + (x.1.x / 2 ^ k * 32 + x.1.t))]
  · refine covers_stride (bijOn_pair ?_ ?_ ?_)
    · intro x hx
      obtain ⟨-, hrow, hi⟩ := (mem_transposeStores hrows).mp hx
      have hcol : x.1.x % 2 ^ k < 2 ^ k := Nat.mod_lt _ htwo
      exact ⟨by omega, hrow⟩
    · intro x hx x' hx' hhi hlo
      obtain ⟨⟨hy, -, ht⟩, -, hi⟩ := (mem_transposeStores hrows).mp hx
      obtain ⟨⟨hy', -, ht'⟩, -, hi'⟩ := (mem_transposeStores hrows).mp hx'
      obtain ⟨⟨y, x, t⟩, i⟩ := x
      obtain ⟨⟨y', x', t'⟩, i'⟩ := x'
      obtain ⟨hi_eq, hmod⟩ := Scatter.stride_inj hi hi' (by rw [add_comm, hhi, add_comm])
      obtain ⟨ht_eq, hdiv⟩ := Scatter.stride_inj ht ht' (by rw [add_comm, hlo, add_comm])
      have hx_eq : x = x' := by
        rw [← Nat.div_add_mod' x (2 ^ k), ← Nat.div_add_mod' x' (2 ^ k), hdiv, hmod]
      have hy_eq : y = y' := (Nat.lt_one_iff.mp hy).trans (Nat.lt_one_iff.mp hy').symm
      obtain rfl : t = t' := ht_eq
      obtain rfl : i = i' := hi_eq
      rw [hx_eq, hy_eq]
    · intro c hc r hr
      have hcol : c / 32 < 2 ^ k := by omega
      have hdiv : (r / 32 * 2 ^ k + c / 32) / 2 ^ k = r / 32 := by
        rw [mul_comm, Nat.mul_add_div htwo, Nat.div_eq_of_lt hcol, add_zero]
      have hmod : (r / 32 * 2 ^ k + c / 32) % 2 ^ k = c / 32 := by
        rw [Nat.mul_add_mod', Nat.mod_eq_of_lt hcol]
      refine ⟨(⟨0, r / 32 * 2 ^ k + c / 32, r % 32⟩, c % 32), ?_, ?_, ?_⟩
      · rw [mem_transposeStores hrows]
        dsimp only
        rw [hdiv]
        refine ⟨⟨Nat.one_pos, ?_, by omega⟩, by omega, by omega⟩
        calc r / 32 * 2 ^ k + c / 32 < r / 32 * 2 ^ k + 2 ^ k := Nat.add_lt_add_left hcol _
          _ = (r / 32 + 1) * 2 ^ k := by ring
          _ ≤ (numNtts + 31) / 32 * 2 ^ k := Nat.mul_le_mul_right _ (by omega)
      · dsimp only
        rw [hmod]
        omega
      · dsimp only
        rw [hdiv]
        omega
  · intro x hx
    obtain ⟨⟨-, hblock, -⟩, -, hi⟩ := (mem_transposeStores hrows).mp hx
    exact transposeDst_eq hk hpos hrows hsize hblock hi

/-- Rows and columns are exchanged. -/
lemma batchTranspose_tiles (hpos : 0 < numNtts) (hsize : numNtts * (2 ^ k * 32) ≤ 2 ^ 32)
    (input : ℕ → F) (b : DeviceBuffer F) (hlen : numNtts * (2 ^ k * 32) ≤ b.len) :
    ∃ b', batchTranspose (k + 5) numNtts input b = some b' ∧ b'.len = b.len ∧
      ∀ r < numNtts, ∀ c < 2 ^ (k + 5),
        b'.cell (c * numNtts + r) = input (r * 2 ^ (k + 5) + c) := by
  have htwo : 0 < 2 ^ k := Nat.two_pow_pos k
  have htotal : numNtts * 2 ^ k ≤ 2 ^ 27 := by
    rw [← mul_assoc] at hsize
    omega
  have hrows : numNtts ≤ 2 ^ 27 := (Nat.le_mul_of_pos_right _ htwo).trans htotal
  have hgrid : (numNtts + 31) / 32 * 2 ^ k < 2 ^ 31 := by
    calc (numNtts + 31) / 32 * 2 ^ k ≤ numNtts * 2 ^ k := Nat.mul_le_mul_right _ (by omega)
      _ < 2 ^ 31 := by omega
  replace hrows : numNtts ≤ 2 ^ 31 := by omega
  have hcovers := covers_transposeDst hk hpos hrows hsize
  obtain ⟨b', hb', hlen', hcells⟩ := b.storeAll_of_covers hcovers (by rwa [mul_comm])
    (fun x => input (transposeSrc (k + 5) x)) (fun _ => List.mem_map)
  refine ⟨b', ?_, hlen', ?_⟩
  · rw [batchTranspose, transposeThreads_eq hk hpos (by omega) hgrid]
    exact hb'
  · intro r hr c hc
    have haddress : c * numNtts + r < 2 ^ k * 32 * numNtts := by
      calc c * numNtts + r < c * numNtts + numNtts := Nat.add_lt_add_left hr _
        _ = (c + 1) * numNtts := by ring
        _ ≤ 2 ^ k * 32 * numNtts := Nat.mul_le_mul_right _ (by rwa [← two_pow_columns])
    obtain ⟨x, hx, hadr⟩ := hcovers.exists_eq (Nat.zero_le _) haddress
    obtain ⟨⟨-, hblock, ht⟩, hrow, hi⟩ := (mem_transposeStores hrows).mp hx
    have hcell := hcells x hx
    rw [hadr, transposeSrc_eq hk hrows hsize hblock hrow] at hcell
    rw [transposeDst_eq hk hpos hrows hsize hblock hi] at hadr
    obtain ⟨hr_eq, hc_eq⟩ := Scatter.stride_inj hrow hr (by rw [add_comm, hadr, add_comm])
    rw [hcell, hr_eq, hc_eq]

/-- Twice as many words as there are offsets: the last one stays. -/
lemma batchTranspose_large (hpow : numNtts ∣ 2 ^ 32) (hsize : numNtts * (2 ^ k * 32) = 2 ^ 33)
    {input : ℕ → F} {b b' : DeviceBuffer F}
    (h : batchTranspose (k + 5) numNtts input b = some b') :
    b'.cell (2 ^ 33 - 1) = b.cell (2 ^ 33 - 1) := by
  have htwo : 0 < 2 ^ k := Nat.two_pow_pos k
  have htotal : numNtts * 2 ^ k = 2 ^ 28 := by
    rw [← mul_assoc] at hsize
    omega
  have hrows : numNtts ≤ 2 ^ 28 := (Nat.le_mul_of_pos_right _ htwo).trans_eq htotal
  have hpos : 0 < numNtts := Nat.pos_of_ne_zero (by rintro rfl; simp at hsize)
  have hgrid : (numNtts + 31) / 32 * 2 ^ k < 2 ^ 31 := by
    calc (numNtts + 31) / 32 * 2 ^ k ≤ numNtts * 2 ^ k := Nat.mul_le_mul_right _ (by omega)
      _ < 2 ^ 31 := by omega
  rw [batchTranspose, transposeThreads_eq hk hpos (by omega) hgrid] at h
  refine DeviceBuffer.storeAll_of_forall_ne h ?_
  intro w hw
  obtain ⟨x, hx, rfl⟩ := List.mem_map.mp hw
  obtain ⟨⟨-, hblock, -⟩, hrow, -⟩ := (mem_transposeStores (by omega)).mp hx
  -- both offsets are multiples of the number of rows below the size of a word
  have hmultiple : ∀ c, u32 (c * numNtts) + numNtts ≤ 2 ^ 32 := by
    intro c
    obtain ⟨d, hd⟩ := hpow
    have hmod : u32 (c * numNtts) = numNtts * (c % d) := by
      rw [u32, hd, mul_comm c, Nat.mul_mod_mul_left]
    have hd_pos : 0 < d := Nat.pos_of_ne_zero (by rintro rfl; simp at hd)
    calc u32 (c * numNtts) + numNtts = numNtts * (c % d + 1) := by rw [hmod]; ring
      _ ≤ numNtts * d := Nat.mul_le_mul_left _ (Nat.mod_lt c hd_pos)
      _ = 2 ^ 32 := hd.symm
  have hcol := hmultiple (transposeCol (k + 5) x.1)
  have hi := hmultiple x.2
  simp only [transposeDst, transposeRow_eq (show numNtts ≤ 2 ^ 31 by omega) hblock]
  omega

end Tiles

/-- Rows and columns are exchanged, if a row is not shorter than a tile. -/
lemma batchTranspose_spec {logN numNtts : ℕ} (hlow : 5 ≤ logN) (hlog : logN ≤ 31)
    (hpos : 0 < numNtts) (hsize : numNtts * 2 ^ logN ≤ 2 ^ 32) (input : ℕ → F)
    (b : DeviceBuffer F) (hlen : numNtts * 2 ^ logN ≤ b.len) :
    ∃ b', batchTranspose logN numNtts input b = some b' ∧ b'.len = b.len ∧
      ∀ r < numNtts, ∀ c < 2 ^ logN, b'.cell (c * numNtts + r) = input (r * 2 ^ logN + c) := by
  obtain ⟨k, rfl⟩ : ∃ k, logN = k + 5 := ⟨logN - 5, by omega⟩
  rw [two_pow_columns] at hsize hlen
  exact batchTranspose_tiles (by omega) hpos hsize input b hlen

end MegaZK
