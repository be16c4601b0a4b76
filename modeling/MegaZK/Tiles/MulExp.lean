import MegaZK.Fri.Extension
import MegaZK.Kernel
import MegaZK.Lib.Fold

/-! # Multiplication by powers

`mul_exp` multiplies every element of an array by the power of a factor with its index, in place;
`coset_e` does the same for an array of extension elements, out of place. A thread has 32 elements,
which are a 32nd of the array apart. -/

namespace MegaZK

open Grid Cover Horner

variable {R M : Type} [CommRing R] [AddCommGroup M] [Module R M]

/-! ### Source -/

/-- `POINT_PER_THREAD` of `mul_exp` and `TILE` of `coset_e`. -/
def pointPerThread : ℕ := 32

/-- `blocks_per_ntt`, on the host and in the kernels. -/
def blocksPerNtt (n threads : ℕ) : ℕ :=
  u32 (n + pointPerThread * threads - 1) / (pointPerThread * threads)

/-- `g_id`: the number of a thread in its array. -/
def scaleId (stride : ℕ) (th : Thread) : ℕ := u32 (th.x % blocksPerNtt stride 128 * 128 + th.t)

/-- The threads that have elements. -/
def scaleThreads (stride : ℕ) (ths : List Thread) : List Thread :=
  ths.filter fun th => scaleId stride th < stride / pointPerThread

/-- Element `i` of a thread. -/
def scaleAddress (stride : ℕ) (x : Thread × ℕ) : ℕ :=
  u32 (x.1.x / blocksPerNtt stride 128 * stride) + scaleId stride x.1 +
    u32 (x.2 * (stride / pointPerThread))

/-- The stores of a thread, with the powers that its loops compute, if the first one ends. -/
def scaleThread (stride : ℕ) (factor : R) (input : ℕ → M) (th : Thread) :
    Option (List (ℕ × M)) :=
  (powUntil (2 ^ 32) (stride / pointPerThread) 33 1 (scaleId stride th) factor 1).map
    fun (a, bUsed) => (List.range pointPerThread).map fun i =>
      (scaleAddress stride (th, i), ((· * bUsed)^[i] a) • input (scaleAddress stride (th, i)))

/-- The body of `mul_exp` and `coset_e`, for the threads of a launch. -/
def scaleKernel (stride : ℕ) (factor : R) (input : ℕ → M) (b : DeviceBuffer M)
    (ths : List Thread) : Option (DeviceBuffer M) := do
  let writes ← (scaleThreads stride ths).mapM (scaleThread stride factor input)
  b.storeAll writes.flatten

/-- `1 << log_n` on the host, where a shift uses the low bits of its amount. -/
def hostDegree (logN : ℕ) : ℕ := u32 (1 <<< (logN % 32))

/-- The threads that `batch_mul_exp` launches. -/
def mulExpThreads (logN numNtts : ℕ) : Option (List Thread) :=
  let threads := 128
  let n := hostDegree logN
  (launch 1 (u32 (blocksPerNtt n threads * numNtts)) threads).toOption

/-- `batch_mul_exp`, in place. -/
def batchMulExp (logN numNtts stride : ℕ) (mulVal : R) (b : DeviceBuffer R) :
    Option (DeviceBuffer R) := do
  let ths ← mulExpThreads logN numNtts
  scaleKernel stride mulVal b.cell b ths

/-- The threads that `batch_pad_coset_ext` launches. -/
def cosetThreads (logN : ℕ) : Option (List Thread) :=
  let threads := 128
  let n := hostDegree logN
  (launch 1 (blocksPerNtt n threads) threads).toOption

/-- `batch_pad_coset_ext` on one array. -/
def batchPadCosetExt (logN stride : ℕ) (coset : R) (input : ℕ → ExtensionField R)
    (b : DeviceBuffer (ExtensionField R)) : Option (DeviceBuffer (ExtensionField R)) := do
  let ths ← cosetThreads logN
  scaleKernel stride coset input b ths

/-! ### Threads and elements -/

section Arrays

variable {k numNtts blocks : ℕ} (hk : k < 27) (hblocks : blocks = (2 ^ k + 127) / 128)
  (hsize : numNtts * (2 ^ k * 32) ≤ 2 ^ 32)

lemma two_pow_points (k : ℕ) : 2 ^ (k + 5) = 2 ^ k * 32 := pow_add 2 k 5

lemma stride_div (k : ℕ) : 2 ^ k * 32 / pointPerThread = 2 ^ k :=
  Nat.mul_div_cancel _ (by decide)

include hk hblocks

lemma blocksPerNtt_eq : blocksPerNtt (2 ^ k * 32) 128 = blocks := by
  have hpow : 2 ^ k ≤ 2 ^ 26 := Nat.pow_le_pow_right (by decide) (by omega)
  rw [blocksPerNtt, pointPerThread, u32_of_lt (by omega), hblocks]
  omega

lemma scaleId_eq {th : Thread} (hblock : th.x % blocks < blocks) (ht : th.t < 128) :
    scaleId (2 ^ k * 32) th = th.x % blocks * 128 + th.t := by
  have hpow : 2 ^ k ≤ 2 ^ 26 := Nat.pow_le_pow_right (by decide) (by omega)
  rw [scaleId, blocksPerNtt_eq hk hblocks, u32_of_lt (by omega)]

lemma mem_scaleThreads {th : Thread} :
    th ∈ scaleThreads (2 ^ k * 32) (threads 1 (blocks * numNtts) 128) ↔
      (th.y < 1 ∧ th.x < blocks * numNtts ∧ th.t < 128) ∧
        th.x % blocks * 128 + th.t < 2 ^ k := by
  have hpos : 0 < 2 ^ k := Nat.two_pow_pos k
  have hblock : th.x % blocks < blocks := Nat.mod_lt _ (by omega)
  rw [scaleThreads, List.mem_filter, mem_threads, stride_div, decide_eq_true_iff]
  refine and_congr_right fun h => ?_
  rw [scaleId_eq hk hblocks hblock h.2.2]

include hsize

/-- The number of an element: its array, its round and its thread. -/
lemma scaleAddress_eq {th : Thread} {i : ℕ} (hth : th.x < blocks * numNtts) (ht : th.t < 128)
    (hi : i < 32) :
    scaleAddress (2 ^ k * 32) (th, i) =
      (th.x / blocks * 32 + i) * 2 ^ k + (th.x % blocks * 128 + th.t) := by
  have hpow : 2 ^ k ≤ 2 ^ 26 := Nat.pow_le_pow_right (by decide) (by omega)
  have hpos : 0 < 2 ^ k := Nat.two_pow_pos k
  have hblock : th.x % blocks < blocks := Nat.mod_lt _ (by omega)
  have hntt : th.x / blocks < numNtts := Nat.div_lt_of_lt_mul hth
  have harray : th.x / blocks * (2 ^ k * 32) < 2 ^ 32 := by
    calc th.x / blocks * (2 ^ k * 32) < numNtts * (2 ^ k * 32) :=
          Nat.mul_lt_mul_of_pos_right hntt (by positivity)
      _ ≤ 2 ^ 32 := hsize
  have hround : i * 2 ^ k ≤ 31 * 2 ^ k := Nat.mul_le_mul_right _ (by omega)
  have hfits : i * 2 ^ k < 2 ^ 32 := by omega
  simp only [scaleAddress, stride_div, blocksPerNtt_eq hk hblocks,
    scaleId_eq hk hblocks hblock ht, u32_of_lt harray, u32_of_lt hfits]
  ring

/-- The rounds of the threads hit every element once. -/
lemma covers_scaleThreads :
    Covers (scaleThreads (2 ^ k * 32) (threads 1 (blocks * numNtts) 128) ×ˢ List.range 32)
      (scaleAddress (2 ^ k * 32)) 0 (numNtts * (2 ^ k * 32)) := by
  have hpow : 2 ^ k ≤ 2 ^ 26 := Nat.pow_le_pow_right (by decide) (by omega)
  have hpos : 0 < 2 ^ k := Nat.two_pow_pos k
  have hblocks_pos : 0 < blocks := by omega
  have htotal : numNtts * (2 ^ k * 32) = numNtts * 32 * 2 ^ k := by ring
  rw [htotal, covers_congr (f := fun x =>
    (x.1.x / blocks * 32 + x.2) * 2 ^ k + (x.1.x % blocks * 128 + x.1.t))]
  · refine covers_stride (bijOn_pair ?_ ?_ ?_)
    · rintro ⟨th, i⟩ hx
      obtain ⟨hth, hi⟩ := List.mem_product.mp hx
      obtain ⟨⟨-, hblock, -⟩, hid⟩ := (mem_scaleThreads hk hblocks).mp hth
      have hi : i < 32 := List.mem_range.mp hi
      have hntt : th.x / blocks < numNtts := Nat.div_lt_of_lt_mul hblock
      refine ⟨?_, hid⟩
      change th.x / blocks * 32 + i < numNtts * 32
      omega
    · rintro ⟨th, i⟩ hx ⟨th', i'⟩ hx' hhi hlo
      obtain ⟨hth, hi⟩ := List.mem_product.mp hx
      obtain ⟨hth', hi'⟩ := List.mem_product.mp hx'
      obtain ⟨⟨hy, -, ht⟩, -⟩ := (mem_scaleThreads hk hblocks).mp hth
      obtain ⟨⟨hy', -, ht'⟩, -⟩ := (mem_scaleThreads hk hblocks).mp hth'
      obtain ⟨rfl, hntt⟩ := Scatter.stride_inj (List.mem_range.mp hi) (List.mem_range.mp hi')
        (by rw [add_comm, hhi, add_comm])
      obtain ⟨ht_eq, hblock⟩ := Scatter.stride_inj ht ht' (by rw [add_comm, hlo, add_comm])
      obtain ⟨y, x, t⟩ := th
      obtain ⟨y', x', t'⟩ := th'
      have hx_eq : x = x' := by
        rw [← Nat.div_add_mod x blocks, ← Nat.div_add_mod x' blocks, hntt, hblock]
      obtain rfl : y = y' := (Nat.lt_one_iff.mp hy).trans (Nat.lt_one_iff.mp hy').symm
      obtain rfl : t = t' := ht_eq
      rw [hx_eq]
    · intro r hr g hg
      have hgrid : g / 128 < blocks := by omega
      have hmod : (r / 32 * blocks + g / 128) % blocks = g / 128 := by
        rw [add_comm, Nat.add_mul_mod_self_right, Nat.mod_eq_of_lt hgrid]
      have hdiv : (r / 32 * blocks + g / 128) / blocks = r / 32 := by
        rw [add_comm, Nat.add_mul_div_right _ _ hblocks_pos, Nat.div_eq_of_lt hgrid, zero_add]
      refine ⟨(⟨0, r / 32 * blocks + g / 128, g % 128⟩, r % 32), ?_, ?_, ?_⟩
      · refine List.mem_product.mpr ⟨(mem_scaleThreads hk hblocks).mpr ?_,
          List.mem_range.mpr (Nat.mod_lt _ (by decide))⟩
        refine ⟨⟨zero_lt_one, ?_, Nat.mod_lt _ (by decide)⟩, ?_⟩
        · calc r / 32 * blocks + g / 128 < r / 32 * blocks + blocks := Nat.add_lt_add_left hgrid _
            _ = blocks * (r / 32 + 1) := by ring
            _ ≤ blocks * numNtts := Nat.mul_le_mul_left _ (by omega)
        · simp only [hmod]
          rwa [Nat.div_add_mod']
      · simp only [hdiv]
        exact Nat.div_add_mod' r 32
      · simp only [hmod]
        exact Nat.div_add_mod' g 128
  · rintro ⟨th, i⟩ hx
    obtain ⟨hth, hi⟩ := List.mem_product.mp hx
    obtain ⟨⟨-, hblock, ht⟩, -⟩ := (mem_scaleThreads hk hblocks).mp hth
    exact scaleAddress_eq hk hblocks hsize hblock ht (List.mem_range.mp hi)

omit hsize in
lemma scaleThread_eq (factor : R) (input : ℕ → M) {th : Thread}
    (hth : th ∈ scaleThreads (2 ^ k * 32) (threads 1 (blocks * numNtts) 128)) :
    scaleThread (2 ^ k * 32) factor input th = some ((List.range 32).map fun i =>
      (scaleAddress (2 ^ k * 32) (th, i),
        factor ^ (i * 2 ^ k + (th.x % blocks * 128 + th.t)) •
          input (scaleAddress (2 ^ k * 32) (th, i)))) := by
  have hpow : 2 ^ k ≤ 2 ^ 26 := Nat.pow_le_pow_right (by decide) (by omega)
  have hpos : 0 < 2 ^ k := Nat.two_pow_pos k
  obtain ⟨⟨-, -, ht⟩, hid⟩ := (mem_scaleThreads hk hblocks).mp hth
  have hblock : th.x % blocks < blocks := Nat.mod_lt _ (by omega)
  rw [scaleThread, stride_div, scaleId_eq hk hblocks hblock ht,
    powUntil_eq (by omega) (by omega) hid, Option.map_some, Option.some.injEq]
  refine List.map_congr_left fun i _ => ?_
  rw [mul_right_iterate]
  congr 2
  ring

/-- Every element is multiplied by the power of the factor with its number in its array. -/
lemma scaleKernel_spec (factor : R) (input : ℕ → M) (b : DeviceBuffer M)
    (hlen : numNtts * (2 ^ k * 32) ≤ b.len) :
    ∃ b', scaleKernel (2 ^ k * 32) factor input b (threads 1 (blocks * numNtts) 128) = some b' ∧
      ∀ ntt < numNtts, ∀ j < 2 ^ k * 32,
        b'.cell (ntt * (2 ^ k * 32) + j) = factor ^ j • input (ntt * (2 ^ k * 32) + j) := by
  have hcovers := covers_scaleThreads hk hblocks hsize
  obtain ⟨b', hb', -, hcell⟩ := b.storeAll_of_covers hcovers hlen
    (fun x => factor ^ (x.2 * 2 ^ k + (x.1.x % blocks * 128 + x.1.t)) •
      input (scaleAddress (2 ^ k * 32) x)) fun _ => List.mem_map
  refine ⟨b', ?_, ?_⟩
  · rw [scaleKernel, Fold.mapM_eq_some_map fun th hth => scaleThread_eq hk hblocks factor input hth]
    rw [← hb']
    simp only [Option.bind_eq_bind, Option.bind_some, SProd.sprod, List.product,
      List.map_flatMap, List.map_map, List.flatten_eq_flatMap, List.flatMap_map]
    rfl
  · intro ntt hntt j hj
    have hlt : ntt * (2 ^ k * 32) + j < numNtts * (2 ^ k * 32) := by
      calc ntt * (2 ^ k * 32) + j < ntt * (2 ^ k * 32) + 2 ^ k * 32 := Nat.add_lt_add_left hj _
        _ = (ntt + 1) * (2 ^ k * 32) := by ring
        _ ≤ numNtts * (2 ^ k * 32) := Nat.mul_le_mul_right _ hntt
    obtain ⟨⟨th, i⟩, hx, haddr⟩ := hcovers.exists_eq (Nat.zero_le _) hlt
    obtain ⟨hth, hi⟩ := List.mem_product.mp hx
    obtain ⟨⟨-, hblock, ht⟩, hid⟩ := (mem_scaleThreads hk hblocks).mp hth
    have hi : i < 32 := List.mem_range.mp hi
    have hj' : i * 2 ^ k + (th.x % blocks * 128 + th.t) < 2 ^ k * 32 := by
      have hround : i * 2 ^ k ≤ 31 * 2 ^ k := Nat.mul_le_mul_right _ (by omega)
      omega
    have hdigits : (th.x / blocks * 32 + i) * 2 ^ k + (th.x % blocks * 128 + th.t) =
        th.x / blocks * (2 ^ k * 32) + (i * 2 ^ k + (th.x % blocks * 128 + th.t)) := by ring
    have hsplit := scaleAddress_eq hk hblocks hsize hblock ht hi
    rw [haddr, hdigits] at hsplit
    obtain ⟨hj_eq, -⟩ := Scatter.stride_inj hj hj' (by rw [add_comm, hsplit, add_comm])
    rw [← haddr, hcell _ hx, hj_eq]

end Arrays

/-! ### Whole arrays -/

lemma scaleKernel_len {stride : ℕ} {factor : R} {input : ℕ → M} {b b' : DeviceBuffer M}
    {ths : List Thread} (h : scaleKernel stride factor input b ths = some b') : b'.len = b.len := by
  obtain ⟨writes, -, h⟩ := Option.bind_eq_some_iff.mp h
  exact DeviceBuffer.storeAll_len h

/-- An element that no thread has stays. -/
lemma scaleKernel_kept {stride : ℕ} {factor : R} {input : ℕ → M} {b b' : DeviceBuffer M}
    {ths : List Thread} (h : scaleKernel stride factor input b ths = some b') {a : ℕ}
    (ha : ∀ x ∈ scaleThreads stride ths ×ˢ List.range pointPerThread, scaleAddress stride x ≠ a) :
    b'.cell a = b.cell a := by
  obtain ⟨writes, hwrites, h⟩ := Option.bind_eq_some_iff.mp h
  refine DeviceBuffer.storeAll_of_forall_ne h ?_
  intro w hw
  obtain ⟨ws, hws, hw⟩ := List.mem_flatten.mp hw
  obtain ⟨th, hth, hstores⟩ := Fold.exists_of_mapM_eq_some hwrites hws
  obtain ⟨powers, -, rfl⟩ := Option.map_eq_some_iff.mp hstores
  obtain ⟨i, hi, rfl⟩ := List.mem_map.mp hw
  exact ha (th, i) (List.mem_product.mpr ⟨hth, hi⟩)

lemma hostDegree_eq {logN : ℕ} (h : logN < 32) : hostDegree logN = 2 ^ logN := by
  rw [hostDegree, Nat.mod_eq_of_lt h, Nat.one_shiftLeft,
    u32_of_lt (Nat.pow_lt_pow_right (by decide) h)]

/-- What `batch_mul_exp` is for: its rounds hit every element of the arrays once, and leave every
element times the power of the factor with its index. -/
structure MultipliesByPowers (logN numNtts : ℕ) : Prop where
  covers : ∃ ths, mulExpThreads logN numNtts = some ths ∧
    Covers (scaleThreads (hostDegree logN) ths ×ˢ List.range pointPerThread)
      (scaleAddress (hostDegree logN)) 0 (numNtts * 2 ^ logN)
  result : ∀ (mulVal : GoldilocksField) (b : DeviceBuffer GoldilocksField),
    numNtts * 2 ^ logN ≤ b.len →
      ∃ b', batchMulExp logN numNtts (hostDegree logN) mulVal b = some b' ∧
        ∀ ntt < numNtts, ∀ j < 2 ^ logN,
          b'.cell (ntt * 2 ^ logN + j) = mulVal ^ j * b.cell (ntt * 2 ^ logN + j)

/-- What `batch_pad_coset_ext` is for, on an array with the stride of its degree. -/
structure PadsCosetExt (logN : ℕ) : Prop where
  covers : ∃ ths, cosetThreads logN = some ths ∧
    Covers (scaleThreads (u32 (2 ^ logN)) ths ×ˢ List.range pointPerThread)
      (scaleAddress (u32 (2 ^ logN))) 0 (2 ^ logN)
  result : ∀ (coset : GoldilocksField) (input : ℕ → QuadraticExtension)
    (b : DeviceBuffer QuadraticExtension), 2 ^ logN ≤ b.len →
      ∃ b', batchPadCosetExt logN (u32 (2 ^ logN)) coset input b = some b' ∧
        ∀ j < 2 ^ logN, b'.cell j = coset ^ j • input j

section Large

variable {logN numNtts : ℕ} (hlog : 5 ≤ logN) (hlog' : logN < 32)

include hlog hlog'

lemma multipliesByPowers_of_le (hpos : 0 < numNtts) (hsize : numNtts * 2 ^ logN ≤ 2 ^ 32) :
    MultipliesByPowers logN numNtts := by
  obtain ⟨k, rfl⟩ := Nat.exists_eq_add_of_le' hlog
  have hk : k < 27 := by omega
  have hpow : 2 ^ k ≤ 2 ^ 26 := Nat.pow_le_pow_right (by decide) (by omega)
  have hpos' : 0 < 2 ^ k := Nat.two_pow_pos k
  set blocks := (2 ^ k + 127) / 128 with hblocks
  have hfits : blocks * numNtts < 2 ^ 31 := by
    have hblocks_le : blocks ≤ 2 ^ k := by omega
    have hmul : blocks * numNtts ≤ 2 ^ k * numNtts := Nat.mul_le_mul_right _ hblocks_le
    rw [two_pow_points] at hsize
    have htotal : 2 ^ k * numNtts * 32 ≤ 2 ^ 32 := by
      calc 2 ^ k * numNtts * 32 = numNtts * (2 ^ k * 32) := by ring
        _ ≤ 2 ^ 32 := hsize
    omega
  have hthreads : mulExpThreads (k + 5) numNtts = some (threads 1 (blocks * numNtts) 128) := by
    have hgrid : 0 < blocks * numNtts := Nat.mul_pos (by omega) hpos
    have hu : u32 (blocks * numNtts) = blocks * numNtts := u32_of_lt (by omega)
    have hvalid : ValidLaunch 1 (blocks * numNtts) 128 := by
      refine ⟨⟨by decide, by decide⟩, ⟨hgrid, hfits⟩, by decide, by decide⟩
    simp only [mulExpThreads, hostDegree_eq hlog', two_pow_points, blocksPerNtt_eq hk hblocks, hu,
      launch_of_valid hvalid]
    rfl
  rw [two_pow_points] at hsize
  constructor
  · refine ⟨_, hthreads, ?_⟩
    rw [hostDegree_eq hlog', two_pow_points]
    exact covers_scaleThreads hk hblocks hsize
  · intro mulVal b hlen
    rw [two_pow_points] at hlen
    obtain ⟨b', hb', hcell⟩ := scaleKernel_spec hk hblocks hsize mulVal b.cell b hlen
    refine ⟨b', ?_, ?_⟩
    · rw [batchMulExp, hthreads, hostDegree_eq hlog', two_pow_points]
      exact hb'
    · rw [two_pow_points]
      exact hcell

lemma padsCosetExt_of_le : PadsCosetExt logN := by
  obtain ⟨k, rfl⟩ := Nat.exists_eq_add_of_le' hlog
  have hk : k < 27 := by omega
  have hpow : 2 ^ k ≤ 2 ^ 26 := Nat.pow_le_pow_right (by decide) (by omega)
  have hpos : 0 < 2 ^ k := Nat.two_pow_pos k
  set blocks := (2 ^ k + 127) / 128 with hblocks
  have hsize : 1 * (2 ^ k * 32) ≤ 2 ^ 32 := by omega
  have hu : u32 (2 ^ (k + 5)) = 2 ^ k * 32 := by
    rw [two_pow_points, u32_of_lt (by omega)]
  have hthreads : cosetThreads (k + 5) = some (threads 1 (blocks * 1) 128) := by
    have hvalid : ValidLaunch 1 (blocks * 1) 128 := by
      refine ⟨⟨by decide, by decide⟩, ⟨by omega, by omega⟩, by decide, by decide⟩
    rw [mul_one] at hvalid ⊢
    simp only [cosetThreads, hostDegree_eq hlog', two_pow_points, blocksPerNtt_eq hk hblocks,
      launch_of_valid hvalid]
    rfl
  constructor
  · refine ⟨_, hthreads, ?_⟩
    have hcovers := covers_scaleThreads hk hblocks hsize
    rw [one_mul] at hcovers
    rw [hu, two_pow_points]
    exact hcovers
  · intro coset input b hlen
    rw [two_pow_points] at hlen
    obtain ⟨b', hb', hcell⟩ := scaleKernel_spec hk hblocks hsize coset input b (by omega)
    refine ⟨b', ?_, ?_⟩
    · rw [batchPadCosetExt, hthreads, hu]
      exact hb'
    · intro j hj
      rw [two_pow_points] at hj
      have h := hcell 0 zero_lt_one j hj
      rwa [zero_mul, zero_add] at h

end Large

/-- Below 32 elements no thread has any. -/
lemma scaleThreads_eq_nil {stride : ℕ} (h : stride < 32) (ths : List Thread) :
    scaleThreads stride ths = [] := by
  have hdiv : stride / pointPerThread = 0 := Nat.div_eq_of_lt h
  rw [scaleThreads, hdiv, List.filter_eq_nil_iff]
  simp

lemma batchPadCosetExt_len {logN stride : ℕ} {coset : R} {input : ℕ → ExtensionField R}
    {b b' : DeviceBuffer (ExtensionField R)}
    (h : batchPadCosetExt logN stride coset input b = some b') : b'.len = b.len := by
  obtain ⟨ths, -, h⟩ := Option.bind_eq_some_iff.mp h
  exact scaleKernel_len h

/-- The elements above the array stay. -/
lemma batchPadCosetExt_kept {logN : ℕ} (hlog : 5 ≤ logN) (hlog' : logN < 32) {coset : R}
    {input : ℕ → ExtensionField R} {b b' : DeviceBuffer (ExtensionField R)}
    (h : batchPadCosetExt logN (u32 (2 ^ logN)) coset input b = some b') {a : ℕ}
    (ha : 2 ^ logN ≤ a) : b'.cell a = b.cell a := by
  obtain ⟨ths, hths, hcovers⟩ := (padsCosetExt_of_le hlog hlog').covers
  obtain ⟨ths', hths', h⟩ := Option.bind_eq_some_iff.mp h
  obtain rfl : ths = ths' := Option.some.inj (hths.symm.trans hths')
  refine scaleKernel_kept h ?_
  intro x hx
  exact ((hcovers.lt hx).trans_le ha).ne

/-- Below 32 elements nothing happens. -/
lemma batchPadCosetExt_of_lt {logN : ℕ} (hlog : logN < 5) (coset : R)
    (input : ℕ → ExtensionField R) (b : DeviceBuffer (ExtensionField R)) :
    batchPadCosetExt logN (u32 (2 ^ logN)) coset input b = some b := by
  have hpow : 2 ^ logN < 32 := Nat.pow_lt_pow_right (n := 5) (by decide) hlog
  have hpos : 0 < 2 ^ logN := Nat.two_pow_pos logN
  have hblocks : blocksPerNtt (2 ^ logN) 128 = 1 := by
    rw [blocksPerNtt, pointPerThread, u32_of_lt (by omega)]
    omega
  have hvalid : ValidLaunch 1 1 128 := by decide
  have hths : cosetThreads logN = some (threads 1 1 128) := by
    simp only [cosetThreads, hostDegree_eq (show logN < 32 by omega), hblocks,
      launch_of_valid hvalid]
    rfl
  rw [batchPadCosetExt, hths, u32_of_lt (by omega)]
  simp only [Option.bind_eq_bind, Option.bind_some, scaleKernel, scaleThreads_eq_nil hpow]
  exact b.storeAll_nil

/-- `mul_exp` needs an array of 32 elements. -/
theorem multipliesByPowers_iff {logN numNtts : ℕ} (hlt : logN < 32) (hpos : 0 < numNtts)
    (hsize : numNtts * 2 ^ logN ≤ 2 ^ 32) : MultipliesByPowers logN numNtts ↔ 5 ≤ logN := by
  constructor
  · intro h
    by_contra hsmall
    obtain ⟨ths, -, hcovers⟩ := h.covers
    have hpow : 2 ^ logN < 32 := Nat.pow_lt_pow_right (n := 5) (by decide) (by omega)
    rw [hostDegree_eq hlt, scaleThreads_eq_nil hpow, List.nil_product, covers_nil_iff] at hcovers
    have hsome : 0 < numNtts * 2 ^ logN := Nat.mul_pos hpos (Nat.two_pow_pos _)
    omega
  · exact fun h => multipliesByPowers_of_le h hlt hpos hsize

/-- And so does `coset_e`. -/
theorem padsCosetExt_iff {logN : ℕ} (hlt : logN < 32) : PadsCosetExt logN ↔ 5 ≤ logN := by
  constructor
  · intro h
    by_contra hsmall
    obtain ⟨ths, -, hcovers⟩ := h.covers
    have hpow : 2 ^ logN < 32 := Nat.pow_lt_pow_right (n := 5) (by decide) (by omega)
    rw [u32_of_lt (by omega), scaleThreads_eq_nil hpow, List.nil_product, covers_nil_iff] at hcovers
    have hsome := Nat.two_pow_pos logN
    omega
  · exact fun h => padsCosetExt_of_le h hlt

end MegaZK
