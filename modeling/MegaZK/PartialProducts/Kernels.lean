import MegaZK.PartialProducts.Host

/-! # What the partial product kernels compute

One lemma per kernel, for sizes whose indices fit in 32 bits. -/

namespace MegaZK

open Grid Scan Dft

variable {F : Type} [Field F]

/-! ### Transforms of columns -/

section Ntt

variable {b b' : DeviceBuffer F} {logN numNtts offset : ℕ} {transform : (ℕ → F) → ℕ → F}

omit [Field F] in
/-- A batch of transforms inside the buffer replaces every column by its transform and keeps the
other cells. -/
lemma batchNttInPlace_spec (transform : (ℕ → F) → ℕ → F) (b : DeviceBuffer F) (logN : ℕ)
    (hlen : offset + numNtts * 2 ^ logN ≤ b.len) :
    ∃ b', batchNttInPlace transform b logN numNtts offset = .ok b' ∧ b'.len = b.len ∧
      (∀ k < numNtts, ∀ i < 2 ^ logN, b'.cell (offset + k * 2 ^ logN + i) =
        transform (fun i => b.cell (offset + k * 2 ^ logN + i)) i) ∧
      ∀ a, a < offset ∨ offset + numNtts * 2 ^ logN ≤ a → b'.cell a = b.cell a := by
  have hassert : u32 (numNtts * 2 ^ logN) ≤ b.len := (Nat.mod_le _ _).trans (by omega)
  refine ⟨_, (if_pos hassert).trans (if_pos hlen), rfl, ?_, ?_⟩
  · intro k hk i hi
    have hlt : k * 2 ^ logN + i < numNtts * 2 ^ logN := by
      calc k * 2 ^ logN + i < (k + 1) * 2 ^ logN := by rw [Nat.succ_mul]; omega
        _ ≤ numNtts * 2 ^ logN := Nat.mul_le_mul_right _ hk
    have hsub : offset + k * 2 ^ logN + i - offset = 2 ^ logN * k + i := by
      rw [Nat.mul_comm (2 ^ logN)]
      omega
    dsimp only
    rw [if_pos (by omega), hsub, Nat.mul_add_div (by positivity), Nat.div_eq_of_lt hi,
      Nat.mul_add_mod, Nat.mod_eq_of_lt hi, Nat.add_zero]
  · intro a ha
    exact if_neg (by omega)

/-- A cell of a batch of columns has a column and a row. -/
lemma exists_column_row {a n m offset : ℕ} (hn : 0 < n) (h : offset ≤ a) (h' : a < offset + m * n) :
    ∃ k < m, ∃ i < n, a = offset + k * n + i := by
  refine ⟨(a - offset) / n, Nat.div_lt_of_lt_mul (by rw [Nat.mul_comm]; omega), (a - offset) % n,
    Nat.mod_lt _ hn, ?_⟩
  have := Nat.div_add_mod' (a - offset) n
  omega

/-- Interpolating what was evaluated gives back the buffer. -/
lemma batchNttInPlace_inverse {ω : F} (hω : IsPrimitiveRoot ω (2 ^ logN))
    (hlen : offset + numNtts * 2 ^ logN ≤ b.len)
    (h : batchNttInPlace (dft ω (2 ^ logN)) b logN numNtts offset = .ok b') :
    batchNttInPlace (idft ω (2 ^ logN)) b' logN numNtts offset = .ok b := by
  obtain ⟨b₁, hb₁, hlen₁, hcol₁, hout₁⟩ := batchNttInPlace_spec (dft ω (2 ^ logN)) b logN hlen
  obtain rfl : b₁ = b' := by simpa [hb₁] using h
  obtain ⟨b₂, hb₂, hlen₂, hcol₂, hout₂⟩ :=
    batchNttInPlace_spec (idft ω (2 ^ logN)) b₁ logN (hlen₁ ▸ hlen)
  rw [hb₂]
  congr 1
  have hcell : b₂.cell = b.cell := by
    funext a
    by_cases ha : offset ≤ a ∧ a < offset + numNtts * 2 ^ logN
    · obtain ⟨k, hk, i, hi, rfl⟩ := exists_column_row (by positivity) ha.1 ha.2
      rw [hcol₂ k hk i hi, idft_congr (fun i hi => hcol₁ k hk i hi), idft_dft hω _ hi]
    · rw [hout₂ a (by omega), hout₁ a (by omega)]
  cases b₂
  cases b
  simp_all

end Ntt

/-! ### The kernels -/

lemma foldl_mul_eq_runningProd (g : ℕ → F) (n : ℕ) :
    (List.range n).foldl (fun acc i => g i * acc) 1 = runningProd g n := by
  induction n with
  | zero => rfl
  | succ n ih => rw [List.range_succ, List.foldl_append, ih, runningProd_succ]; exact mul_comm _ _

section Kernels

variable {gy gx bx : ℕ}

/-- The chunk quotients, challenge by challenge and row by row. -/
lemma wiresPermutationPartialProductsTrans_spec (p : PermutationInputs F)
    (cols : PermutationColumns F) (witness sSigmas : ℕ → F) (qv : DeviceBuffer F) (q : ℕ)
    (hvalid : ValidLaunch gy gx bx) (hlen : gy * gx * bx ≤ qv.len) (hfits : gy * gx * bx ≤ 2 ^ 31)
    (hq : bx * q < 2 ^ 31) (hread : bx * q * gx ≤ 2 ^ 32)
    (hwire : ∀ j < bx * q, ∀ i < gx, witness (j * gx + i) = cols.wire i j)
    (hsigma : ∀ j < bx * q, ∀ i < gx, sSigmas (j * gx + i) = cols.sigma i j) :
    ∃ qv', wiresPermutationPartialProductsTrans p witness sSigmas qv q gx gy gx bx = .ok qv' ∧
      qv'.len = qv.len ∧ ∀ k < gy, ∀ m < gx * bx,
        qv'.cell (k * (gx * bx) + m) = cols.chunkQuotient p bx q k m := by
  obtain ⟨qv', hqv', hqlen, hcell⟩ := store_flat qv
    (fun th => i32 (th.y * gx * bx + th.x * bx + th.t))
    (fun th => (List.range (u32 q)).foldl
      (fun acc i => p.quotient th.y th.x (i32 (th.t * q + i)).toNat
        (witness (u32 ((th.t * q + i) * gx + th.x)))
        (sSigmas (u32 (th.x + (th.t * q + i) * gx))) * acc) 1)
    (fun _ => true) hlen hfits
    (fun th => by rw [Thread.flat, Nat.add_mul])
  rw [List.filter_true] at hqv'
  refine ⟨qv', ?_, hqlen, ?_⟩
  · rw [wiresPermutationPartialProductsTrans, launch_of_valid hvalid]
    exact hqv'
  · intro k hk m hm
    have hth := threadAt_mem hk hm
    obtain ⟨-, hrow, ht⟩ := mem_threads.mp hth
    rw [← threadAt_flat, hcell _ hth, if_pos rfl, foldl_mul_eq_runningProd]
    have hbx : 0 < bx := by omega
    have hqu : u32 q = q := u32_of_lt (by
      have := Nat.le_mul_of_pos_left q hbx
      omega)
    rw [hqu]
    apply runningProd_congr
    intro i hi
    have hj : (threadAt bx k m).t * q + i < bx * q := by
      calc (threadAt bx k m).t * q + i < ((threadAt bx k m).t + 1) * q := by
            rw [Nat.succ_mul]; omega
        _ ≤ bx * q := Nat.mul_le_mul_right q ht
    have haddr : ((threadAt bx k m).t * q + i) * gx + (threadAt bx k m).x < 2 ^ 32 := by
      calc ((threadAt bx k m).t * q + i) * gx + (threadAt bx k m).x
          < ((threadAt bx k m).t * q + i + 1) * gx := by rw [Nat.succ_mul]; omega
        _ ≤ bx * q * gx := Nat.mul_le_mul_right gx hj
        _ ≤ 2 ^ 32 := hread
    rw [Nat.add_comm (threadAt bx k m).x, u32_of_lt haddr, i32_of_lt (by omega),
      hwire _ hj _ hrow, hsigma _ hj _ hrow]
    rfl

/-- What a block of `scan_part_kernel` has in shared memory after its scan. -/
lemma scanPart_shm {qv : DeviceBuffer F} {f : ℕ → ℕ → F} {th : Thread}
    (hth : th ∈ threads gy gx bx) (hfits : gy * gx * bx ≤ 2 ^ 31)
    (hqv : ∀ k < gy, ∀ m < gx * bx, qv.cell (k * (gx * bx) + m) = f k m) :
    (scanLoop 0 bx fun t =>
      if u32 ((th.y * gx + th.x) * bx + t) < u32 (gy * (gx * bx)) then
        qv.cell (i32 ((th.y * gx + th.x) * bx + t)).toNat
      else 0).2 th.t = runningProd (fun t => f th.y (th.x * bx + t)) (th.t + 1) := by
  obtain ⟨hy, hx, ht⟩ := mem_threads.mp hth
  have hscan := scanLoop_of_lt 0 (fun t =>
    if u32 ((th.y * gx + th.x) * bx + t) < u32 (gy * (gx * bx)) then
      qv.cell (i32 ((th.y * gx + th.x) * bx + t)).toNat
    else 0) ht
  rw [Nat.zero_add] at hscan
  rw [hscan]
  apply runningProd_congr
  intro t htt
  have hmem : ({ th with t := t } : Thread) ∈ threads gy gx bx :=
    mem_threads.mpr ⟨hy, hx, by dsimp only; omega⟩
  have hlt := Thread.flat_lt hmem
  simp only [Thread.flat] at hlt
  have hm : th.x * bx + t < gx * bx := by
    calc th.x * bx + t < (th.x + 1) * bx := by rw [Nat.succ_mul]; omega
      _ ≤ gx * bx := Nat.mul_le_mul_right bx hx
  have haddr : (th.y * gx + th.x) * bx + t = th.y * (gx * bx) + (th.x * bx + t) := by ring
  rw [Nat.zero_add, u32_of_lt (by omega), u32_of_lt (by rw [← Nat.mul_assoc]; omega),
    if_pos (by rw [← Nat.mul_assoc]; omega), i32_of_lt (by omega), Int.toNat_natCast, haddr,
    hqv _ hy _ hm]

/-- The block scan: every block leaves its running products and its product. -/
lemma scanPart_spec (qv part pp : DeviceBuffer F) {f : ℕ → ℕ → F} (hvalid : ValidLaunch gy gx bx)
    (hpp : gy * gx * bx ≤ pp.len) (hpart : gy * gx ≤ part.len) (hfits : gy * gx * bx ≤ 2 ^ 31)
    (hqv : ∀ k < gy, ∀ m < gx * bx, qv.cell (k * (gx * bx) + m) = f k m) :
    ∃ part' pp', scanPart qv part pp (gy * (gx * bx)) gy gx bx = .ok (part', pp') ∧
      part'.len = part.len ∧ pp'.len = pp.len ∧
      (∀ k < gy, ∀ x < gx, part'.cell (k * gx + x) = runningProd (fun t => f k (x * bx + t)) bx) ∧
      ∀ k < gy, ∀ m < gx * bx, pp'.cell (k * (gx * bx) + m) =
        runningProd (fun t => f k (m / bx * bx + t)) (m % bx + 1) := by
  have hbx : 0 < bx := hvalid.2.2.1
  let shm := fun th : Thread =>
    (scanLoop 0 bx fun t =>
      if u32 ((th.y * gx + th.x) * bx + t) < u32 (gy * (gx * bx)) then
        qv.cell (i32 ((th.y * gx + th.x) * bx + t)).toNat
      else 0).2 th.t
  have hshm : ∀ th ∈ threads gy gx bx,
      shm th = runningProd (fun t => f th.y (th.x * bx + t)) (th.t + 1) := by
    intro th hth
    exact scanPart_shm hth hfits hqv
  obtain ⟨pp', hpp', hpplen, hppcell⟩ := store_flat pp
    (fun th => i32 ((th.y * gx + th.x) * bx + th.t)) shm
    (fun th => u32 ((th.y * gx + th.x) * bx + th.t) < u32 (gy * (gx * bx))) hpp hfits (fun _ => rfl)
  have hlast : ∀ th ∈ (threads gy gx bx).filter (fun th => th.t = bx - 1),
      th.y * gx + th.x < gy * gx ∧ th.x < gx ∧ th.t = bx - 1 := by
    intro th hth
    obtain ⟨hmem, ht⟩ := List.mem_filter.mp hth
    obtain ⟨hy, hx, -⟩ := mem_threads.mp hmem
    refine ⟨?_, hx, of_decide_eq_true ht⟩
    calc th.y * gx + th.x < (th.y + 1) * gx := by rw [Nat.succ_mul]; omega
      _ ≤ gy * gx := Nat.mul_le_mul_right gx hy
  have hblocks : gy * gx ≤ gy * gx * bx := Nat.le_mul_of_pos_right _ hbx
  obtain ⟨part', hpart', hpartlen, hpartcell, -⟩ := part.store_spec
    (fun th => i32 (th.y * gx + th.x)) shm
    (l := (threads gy gx bx).filter fun th => th.t = bx - 1) (fun th => th.y * gx + th.x)
    (fun th hth => i32_of_lt (by have := (hlast th hth).1; omega))
    (fun th hth => by have := (hlast th hth).1; omega)
    (fun th hth th' hth' heq => by
      obtain ⟨hx, hy⟩ := Scatter.stride_inj (hlast th' hth').2.1 (hlast th hth).2.1
        (by rw [Nat.add_comm, heq, Nat.add_comm])
      have ht := (hlast th hth).2.2
      have ht' := (hlast th' hth').2.2
      cases th
      cases th'
      simp_all)
  refine ⟨part', pp', ?_, hpartlen, hpplen, ?_, ?_⟩
  · simp only [scanPart, launch_of_valid hvalid, bind, Except.bind]
    rw [hpp']
    dsimp only
    rw [hpart']
    rfl
  · intro k hk x hx
    have hmem : (⟨k, x, bx - 1⟩ : Thread) ∈ threads gy gx bx :=
      mem_threads.mpr ⟨hk, hx, by dsimp only; omega⟩
    have h := hpartcell ⟨k, x, bx - 1⟩ (List.mem_filter.mpr ⟨hmem, by simp⟩)
    rw [hshm _ hmem] at h
    dsimp only at h
    rw [h, Nat.sub_add_cancel hbx]
  · intro k hk m hm
    have hmem := threadAt_mem hk hm
    have hlt := Thread.flat_lt hmem
    rw [← threadAt_flat, hppcell _ hmem, if_pos, hshm _ hmem]
    · rfl
    · simp only [Thread.flat] at hlt
      rw [u32_of_lt (by omega), u32_of_lt (by rw [← Nat.mul_assoc]; omega), ← Nat.mul_assoc]
      exact decide_eq_true hlt

/-- The scan of the block products, separately for the two challenges. -/
lemma scanPartProduct_spec (part : DeviceBuffer F) {g : ℕ → ℕ → F} {n : ℕ} (hlen : 2 * n ≤ part.len)
    (hfits : 2 * n ≤ 2 ^ 31) (hpart : ∀ k < 2, ∀ x < n, part.cell (k * n + x) = g k x) :
    ∃ part', scanPartProduct part n = .ok part' ∧
      ∀ k < 2, ∀ x < n, part'.cell (k * n + x) = runningProd (g k) (x + 1) := by
  have hn : u32 n = n := u32_of_lt (by omega)
  have hn2 : u32 (2 * n) = 2 * n := u32_of_lt (by omega)
  have hwhole : 2 * n - n = n := by omega
  have hfirst : ∀ x < n, (scanLoop 0 n part.cell).2 x = runningProd (g 0) (x + 1) := by
    intro x hx
    have h := scanLoop_of_lt 0 part.cell hx
    rw [Nat.zero_add] at h
    rw [h]
    apply runningProd_congr
    intro i hi
    simpa using hpart 0 (by omega) i (by omega)
  have hsecond : ∀ x < n, (scanLoop n n (scanLoop 0 n part.cell).2).2 (n + x) =
      runningProd (g 1) (x + 1) := by
    intro x hx
    rw [scanLoop_of_lt n _ hx]
    apply runningProd_congr
    intro i hi
    rw [scanLoop_of_outside _ (by omega)]
    simpa using hpart 1 (by omega) i (by omega)
  refine ⟨⟨part.len, (scanLoop n n (scanLoop 0 n part.cell).2).2⟩, ?_, ?_⟩
  · simp only [scanPartProduct, launch_of_valid (by decide : ValidLaunch 1 1 1), bind, Except.bind,
      hn, hn2, hwhole]
    apply if_pos
    intro i hi
    rw [i32_of_lt (by omega)]
    omega
  · intro k hk x hx
    rcases (by omega : k = 0 ∨ k = 1) with rfl | rfl
    · rw [Nat.zero_mul, Nat.zero_add, ← hfirst x hx]
      exact scanLoop_of_outside _ (by omega)
    · rw [Nat.one_mul]
      exact hsecond x hx

/-- The recombination: the products of a block times those of the blocks before it. -/
lemma mulPartProduct_spec {part pp : DeviceBuffer F} {f : ℕ → ℕ → F} (hvalid : ValidLaunch gy gx bx)
    (hlen : gy * gx * bx ≤ pp.len) (hfits : gy * gx * bx ≤ 2 ^ 31)
    (hpart : ∀ k < gy, ∀ x < gx, part.cell (k * gx + x) =
      runningProd (fun x => runningProd (fun t => f k (x * bx + t)) bx) (x + 1))
    (hpp : ∀ k < gy, ∀ m < gx * bx, pp.cell (k * (gx * bx) + m) =
      runningProd (fun t => f k (m / bx * bx + t)) (m % bx + 1)) :
    ∃ pp', mulPartProduct part pp (gy * (gx * bx)) gy gx bx = .ok pp' ∧
      ∀ k < gy, ∀ m < gx * bx, pp'.cell (k * (gx * bx) + m) = runningProd (f k) (m + 1) := by
  obtain ⟨pp', hpp', -, hcell⟩ := store_flat pp
    (fun th => i32 ((th.y * gx + th.x) * bx + th.t))
    (fun th => pp.cell (i32 ((th.y * gx + th.x) * bx + th.t)).toNat *
      part.cell (i32 (th.y * gx + th.x) - 1).toNat)
    (fun th => th.x ≠ 0 ∧ u32 ((th.y * gx + th.x) * bx + th.t) < u32 (gy * (gx * bx))) hlen hfits (fun _ => rfl)
  refine ⟨pp', ?_, ?_⟩
  · rw [mulPartProduct, launch_of_valid hvalid]
    exact hpp'
  · intro k hk m hm
    have hmem := threadAt_mem hk hm
    have hlt := Thread.flat_lt hmem
    have hm' : m / bx * bx + m % bx = m := Nat.div_add_mod' m bx
    have haddr : (k * gx + m / bx) * bx + m % bx = k * (gx * bx) + m := by
      rw [Nat.add_mul, Nat.add_assoc, hm', Nat.mul_assoc]
    rw [← threadAt_flat, hcell _ hmem]
    simp only [Thread.flat, threadAt, decide_eq_true_eq, haddr] at hlt ⊢
    by_cases hx : m / bx = 0
    · -- the first block has nothing before it
      rw [if_neg (by simp [hx]), hpp k hk m hm, hx]
      simp only [hx, Nat.zero_mul, Nat.zero_add] at hm' ⊢
      rw [hm']
    · have hpos : 0 < m / bx := Nat.pos_of_ne_zero hx
      have hprev : k * gx + m / bx < 2 ^ 31 := by
        have hbx : 0 < bx := hvalid.2.2.1
        have := Nat.le_mul_of_pos_right (k * gx + m / bx) hbx
        omega
      have hidx : (((k * gx + m / bx : ℕ) : ℤ) - 1).toNat = k * gx + (m / bx - 1) := by omega
      have hblock : m / bx - 1 < gx := by
        have : m / bx < gx := Nat.div_lt_of_lt_mul (by rwa [Nat.mul_comm bx])
        omega
      have hcond : u32 (k * (gx * bx) + m) < u32 (gy * (gx * bx)) := by
        rw [u32_of_lt (by omega), u32_of_lt (by rw [← Nat.mul_assoc]; omega), ← Nat.mul_assoc gy]
        exact hlt
      rw [if_pos ⟨hx, hcond⟩, i32_of_lt (by omega), i32_of_lt hprev, hidx, Int.toNat_natCast, hpp k hk m hm,
        hpart k hk _ hblock, Nat.sub_add_cancel (by omega), runningProd_local_mul_blocks, hm']

/-! ### The transposition -/

/-- The place of column `j` of challenge `k` in the order of the prover. -/
def zsColumnIdx (numChunks k j : ℕ) : ℕ :=
  if j = numChunks - 1 then k else 2 + k * (numChunks - 1) + j

/-- The row to which a thread of `matrix_trans_kernel` writes. -/
def transRow (gx bx : ℕ) (th : Thread) : ℕ :=
  if th.t = bx - 1 then if th.x = gx - 1 then 0 else th.x + 1 else th.x

lemma zsColumnIdx_lt {numChunks k j : ℕ} (hk : k < 2) (hj : j < numChunks) :
    zsColumnIdx numChunks k j < 2 * numChunks := by
  unfold zsColumnIdx
  rcases (by omega : k = 0 ∨ k = 1) with rfl | rfl
  · split_ifs <;> omega
  · split_ifs <;> omega

lemma zsColumnIdx_inj {numChunks k j k' j' : ℕ} (hk : k < 2) (hj : j < numChunks) (hk' : k' < 2)
    (hj' : j' < numChunks) (h : zsColumnIdx numChunks k j = zsColumnIdx numChunks k' j') :
    k = k' ∧ j = j' := by
  unfold zsColumnIdx at h
  rcases (by omega : k = 0 ∨ k = 1) with rfl | rfl <;>
    rcases (by omega : k' = 0 ∨ k' = 1) with rfl | rfl <;>
      split_ifs at h <;> omega

lemma transRow_lt (bx : ℕ) {th : Thread} (hx : th.x < gx) : transRow gx bx th < gx := by
  unfold transRow
  split_ifs <;> omega

lemma matrixTransDst_eq {th : Thread} (hth : th ∈ threads 2 gx bx) (hfits : 2 * gx * bx ≤ 2 ^ 31) :
    matrixTransDst gx bx th = (zsColumnIdx bx th.y th.t * gx + transRow gx bx th : ℕ) := by
  obtain ⟨hy, hx, ht⟩ := mem_threads.mp hth
  have hlt : zsColumnIdx bx th.y th.t * gx + transRow gx bx th < 2 ^ 31 := by
    have hrow := transRow_lt bx hx
    calc zsColumnIdx bx th.y th.t * gx + transRow gx bx th
        < (zsColumnIdx bx th.y th.t + 1) * gx := by rw [Nat.succ_mul]; omega
      _ ≤ 2 * bx * gx := Nat.mul_le_mul_right gx (zsColumnIdx_lt hy ht)
      _ ≤ 2 ^ 31 := by rw [Nat.mul_assoc, Nat.mul_comm bx, ← Nat.mul_assoc]; exact hfits
  unfold matrixTransDst
  unfold zsColumnIdx transRow at hlt ⊢
  by_cases hlast : th.t = bx - 1
  · simp only [if_pos hlast] at hlt ⊢
    by_cases hend : th.x = gx - 1
    · simp only [if_pos hend] at hlt ⊢
      rw [u32_of_lt (by omega), Nat.add_zero]
    · simp only [if_neg hend] at hlt ⊢
      rw [u32_of_lt (by omega), Nat.add_assoc]
  · simp only [if_neg hlast] at hlt ⊢
    have hint : (th.y * gx * bx + ((th.t : ℤ) + 2 - th.y) * gx + th.x : ℤ) =
        ((2 + th.y * (bx - 1) + th.t) * gx + th.x : ℕ) := by
      push_cast [Nat.cast_sub (by omega : 1 ≤ bx)]
      ring
    rw [hint, Int.emod_eq_of_lt (by positivity) (by omega)]

/-- The threads of `matrix_trans_kernel` write to distinct cells. -/
lemma transThread_inj {th th' : Thread} (hth : th ∈ threads 2 gx bx) (hth' : th' ∈ threads 2 gx bx)
    (h : zsColumnIdx bx th.y th.t * gx + transRow gx bx th =
      zsColumnIdx bx th'.y th'.t * gx + transRow gx bx th') : th = th' := by
  obtain ⟨hy, hx, ht⟩ := mem_threads.mp hth
  obtain ⟨hy', hx', ht'⟩ := mem_threads.mp hth'
  obtain ⟨hrow, hcol⟩ := Scatter.stride_inj (transRow_lt bx hx) (transRow_lt bx hx')
    (by rw [Nat.add_comm, h, Nat.add_comm])
  obtain ⟨hyy, htt⟩ := zsColumnIdx_inj hy ht hy' ht' hcol
  have hxx : th.x = th'.x := by
    unfold transRow at hrow
    rw [← htt] at hrow
    split_ifs at hrow <;> omega
  cases th
  cases th'
  simp_all

/-- The thread that writes row `i` of column `j` of challenge `k`. -/
def transThread (gx bx k j i : ℕ) : Thread :=
  ⟨k, if j = bx - 1 then if i = 0 then gx - 1 else i - 1 else i, j⟩

lemma transThread_mem {k j i : ℕ} (hk : k < 2) (hj : j < bx) (hi : i < gx) :
    transThread gx bx k j i ∈ threads 2 gx bx := by
  rw [mem_threads]
  refine ⟨hk, ?_, hj⟩
  dsimp only [transThread]
  split_ifs <;> omega

lemma transRow_transThread {k j i : ℕ} (hi : i < gx) :
    transRow gx bx (transThread gx bx k j i) = i := by
  dsimp only [transThread, transRow]
  split_ifs <;> omega

/-- The transposed products: all columns in the order of the prover, and nothing else. -/
lemma matrixTrans_spec (pp fp : DeviceBuffer F) {f : ℕ → ℕ → F} (offset : ℕ)
    (hvalid : ValidLaunch 2 gx bx) (hlen : offset + 2 * bx * gx ≤ fp.len)
    (hfits : 2 * gx * bx ≤ 2 ^ 31)
    (hpp : ∀ k < 2, ∀ m < gx * bx, pp.cell (k * (gx * bx) + m) = runningProd (f k) (m + 1)) :
    ∃ fp', matrixTrans pp fp offset 2 gx bx = .ok fp' ∧ fp'.len = fp.len ∧
      (∀ k < 2, ∀ j < bx, ∀ i < gx,
        fp'.cell (offset + zsColumnIdx bx k j * gx + i) = zsEntry bx (f k) j i) ∧
      ∀ a, a < offset ∨ offset + 2 * bx * gx ≤ a → fp'.cell a = fp.cell a := by
  have hadr : ∀ th ∈ threads 2 gx bx,
      zsColumnIdx bx th.y th.t * gx + transRow gx bx th < 2 * bx * gx := by
    intro th hth
    obtain ⟨hy, hx, ht⟩ := mem_threads.mp hth
    have hrow := transRow_lt bx hx
    calc zsColumnIdx bx th.y th.t * gx + transRow gx bx th
        < (zsColumnIdx bx th.y th.t + 1) * gx := by rw [Nat.succ_mul]; omega
      _ ≤ 2 * bx * gx := Nat.mul_le_mul_right gx (zsColumnIdx_lt hy ht)
  obtain ⟨fp', hfp', hfplen, hwritten, hkept⟩ := fp.store_spec
    (fun th => offset + matrixTransDst gx bx th)
    (fun th => if th.t = bx - 1 ∧ th.x = gx - 1 then 1
      else pp.cell (u32 (th.y * gx * bx + th.x * bx + th.t)))
    (l := threads 2 gx bx)
    (fun th => offset + zsColumnIdx bx th.y th.t * gx + transRow gx bx th)
    (fun th hth => by
      rw [matrixTransDst_eq hth hfits]
      push_cast
      ring)
    (fun th hth => by have := hadr th hth; omega)
    (fun th hth th' hth' heq => transThread_inj hth' hth (by omega))
  refine ⟨fp', ?_, hfplen, ?_, ?_⟩
  · rw [matrixTrans, launch_of_valid hvalid]
    exact hfp'
  · intro k hk j hj i hi
    have hmem := transThread_mem hk hj hi
    have hlt := Thread.flat_lt hmem
    have h := hwritten _ hmem
    rw [transRow_transThread hi] at h
    refine h.trans ?_
    simp only [Thread.flat, transThread] at hlt ⊢
    rw [Nat.add_mul] at hlt
    rw [u32_of_lt (by omega)]
    have hrow : ∀ x < gx, pp.cell (k * gx * bx + x * bx + j) =
        runningProd (f k) (x * bx + j + 1) := by
      intro x hx
      rw [Nat.mul_assoc, Nat.add_assoc]
      apply hpp k hk
      calc x * bx + j < (x + 1) * bx := by rw [Nat.succ_mul]; omega
        _ ≤ gx * bx := Nat.mul_le_mul_right bx hx
    unfold zsEntry
    by_cases hlast : j = bx - 1
    · simp only [if_pos hlast]
      by_cases hi0 : i = 0
      · rw [if_pos hi0, if_pos ⟨hlast, rfl⟩, hi0, Nat.zero_mul, runningProd_zero]
      · -- the last product of the row before
        have hprev : (i - 1) * bx + j + 1 = i * bx := by
          obtain ⟨i, rfl⟩ := Nat.exists_eq_succ_of_ne_zero hi0
          rw [Nat.succ_sub_one, Nat.succ_mul]
          omega
        rw [if_neg hi0, if_neg (by omega), hrow _ (by omega), hprev]
    · simp only [if_neg hlast]
      rw [if_neg (by omega), hrow i hi]
  · intro a ha
    apply hkept
    intro th hth heq
    have := hadr th hth
    omega

end Kernels

end MegaZK
