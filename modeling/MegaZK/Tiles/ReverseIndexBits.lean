import MegaZK.BitReversal
import MegaZK.Goldilocks
import MegaZK.Kernel

/-! # Reversal of indices

`batch_reverse_index_bits_inplace`: every warp takes two tiles of 32 times 32 elements, a tile and
the one whose number has the same bits in reverse, and exchanges them. -/

namespace MegaZK

open Grid Cover

variable {F : Type}

/-! ### Source -/

/-- `array`: the numbers below 32 with their bits reversed. -/
def reversedLanes : List ℕ :=
  [0, 16, 8, 24, 4, 20, 12, 28, 2, 18, 10, 26, 6, 22, 14, 30, 1, 17, 9, 25, 5, 21, 13, 29, 3, 19,
    11, 27, 7, 23, 15, 31]

/-- What a block of `reverse_index_bits_inplace` works on: its array, its tile in it and the tile
that it exchanges it with. -/
structure ReverseWarp where
  nttId : ℕ
  warpId : ℕ
  warpIdR : ℕ

/-- The block with number `x`. The number of bits of a tile wraps for degrees below a tile. -/
def reverseWarp (logN degree x : ℕ) : ReverseWarp :=
  let blocksPerNtt := u32 (degree + 32 * 32 - 1) / (32 * 32)
  let warpId := x % blocksPerNtt
  ⟨x / blocksPerNtt, warpId, reverseBits warpId (u32 (logN + 2 ^ 32 - 2 * 5))⟩

/-- The stores of the threads: round `i` of a thread stores at the reversed tile, and at the tile
itself if the tiles differ. A warp whose tile is the larger one does nothing. -/
def reverseStores (logN degree : ℕ) (ths : List Thread) : List (Thread × ℕ × Bool) :=
  (ths ×ˢ List.range 32 ×ˢ [false, true]).filter fun x =>
    let w := reverseWarp logN degree x.1.x
    if x.2.2 then w.warpId < w.warpIdR else w.warpId ≤ w.warpIdR

/-- Where a store goes. -/
def reverseDst (logN degree : ℕ) (x : Thread × ℕ × Bool) : ℕ :=
  let w := reverseWarp logN degree x.1.x
  let tile := if x.2.2 then w.warpId else w.warpIdR
  u32 (w.nttId * degree) + u32 (tile * 32) + (x.1.t &&& 31) + u32 (x.2.1 * (degree / 32))

/-- Where its element comes from: the other tile was read into shared memory by rows, and is read
from there by columns. -/
def reverseSrc (logN degree : ℕ) (x : Thread × ℕ × Bool) : ℕ :=
  let w := reverseWarp logN degree x.1.x
  let tile := if x.2.2 then w.warpIdR else w.warpId
  let laneIdR := reversedLanes.getD (x.1.t &&& 31) 0
  u32 (w.nttId * degree) + u32 (tile * 32) + reversedLanes.getD x.2.1 0 +
    u32 (laneIdR * (degree / 32))

/-- The threads that `batch_reverse_index_bits_inplace` launches. -/
def reverseThreads (logN numNtts : ℕ) : Option (List Thread) :=
  let threads := 32
  let elementsPerThread := threads * threads
  let n := u32 (1 <<< (logN % 32))
  let blocksPerNtt := u32 (n + elementsPerThread - 1) / elementsPerThread
  (launch 1 (u32 (blocksPerNtt * numNtts)) threads).toOption

/-- `batch_reverse_index_bits_inplace`. -/
def reverseIndexBitsInplace (logN numNtts : ℕ) (b : DeviceBuffer F) : Option (DeviceBuffer F) := do
  let ths ← reverseThreads logN numNtts
  let degree ← shlUnsigned logN
  b.storeAll ((reverseStores logN degree ths).map fun x =>
    (reverseDst logN degree x, b.cell (reverseSrc logN degree x)))

/-! ### Tiles -/

lemma reversedLanes_getD {i : ℕ} (hi : i < 32) : reversedLanes.getD i 0 = reverseBits i 5 := by
  revert i
  decide

lemma reverseBits_zero (logN : ℕ) : reverseBits 0 logN = 0 := by
  apply Nat.eq_of_testBit_eq
  intro i
  rw [testBit_reverseBits]
  simp

section Tiles

variable {k numNtts : ℕ} (hk : k < 22) (hsize : numNtts * 2 ^ (k + 10) ≤ 2 ^ 32)

lemma two_pow_tiles (k : ℕ) : 2 ^ (k + 10) = 2 ^ k * 1024 := pow_add 2 k 10

include hk

lemma reverseWarp_eq (x : ℕ) : reverseWarp (k + 10) (2 ^ (k + 10)) x =
    ⟨x / 2 ^ k, x % 2 ^ k, reverseBits (x % 2 ^ k) k⟩ := by
  have hpow : 2 ^ k < 2 ^ 22 := Nat.pow_lt_pow_right (by decide) hk
  have hblocks : u32 (2 ^ (k + 10) + 32 * 32 - 1) / (32 * 32) = 2 ^ k := by
    rw [two_pow_tiles, u32_of_lt (by omega)]
    omega
  have hbits : u32 (k + 10 + 2 ^ 32 - 2 * 5) = k := by
    have hsub : k + 10 + 2 ^ 32 - 2 * 5 = k + 2 ^ 32 := by omega
    rw [hsub, u32, Nat.add_mod_right]
    exact Nat.mod_eq_of_lt (by omega)
  rw [reverseWarp, hblocks, hbits]

lemma mem_reverseStores {x : Thread × ℕ × Bool} :
    x ∈ reverseStores (k + 10) (2 ^ (k + 10)) (threads 1 (2 ^ k * numNtts) 32) ↔
      (x.1.y < 1 ∧ x.1.x < 2 ^ k * numNtts ∧ x.1.t < 32) ∧ x.2.1 < 32 ∧
        if x.2.2 then x.1.x % 2 ^ k < reverseBits (x.1.x % 2 ^ k) k
        else x.1.x % 2 ^ k ≤ reverseBits (x.1.x % 2 ^ k) k := by
  obtain ⟨th, i, side⟩ := x
  cases side <;>
    simp [reverseStores, reverseWarp_eq hk, List.mem_filter, List.mem_product, and_assoc]

include hsize

lemma reverseThreads_eq (hpos : 0 < numNtts) :
    reverseThreads (k + 10) numNtts = some (threads 1 (2 ^ k * numNtts) 32) := by
  have hpow : 2 ^ k < 2 ^ 22 := Nat.pow_lt_pow_right (by decide) hk
  have htwo : 0 < 2 ^ k := Nat.two_pow_pos k
  have hn : u32 (1 <<< ((k + 10) % 32)) = 2 ^ k * 1024 := by
    rw [Nat.mod_eq_of_lt (by omega), Nat.one_shiftLeft, two_pow_tiles, u32_of_lt (by omega)]
  have hblocks : u32 (2 ^ k * 1024 + 32 * 32 - 1) / (32 * 32) = 2 ^ k := by
    rw [u32_of_lt (by omega)]
    omega
  have htotal : 2 ^ k * numNtts * 1024 ≤ 2 ^ 32 := by
    rw [two_pow_tiles] at hsize
    calc 2 ^ k * numNtts * 1024 = numNtts * (2 ^ k * 1024) := by ring
      _ ≤ 2 ^ 32 := hsize
  have hgrid : 0 < 2 ^ k * numNtts := Nat.mul_pos htwo hpos
  have hu : u32 (2 ^ k * numNtts) = 2 ^ k * numNtts := u32_of_lt (by omega)
  have hvalid : ValidLaunch 1 (2 ^ k * numNtts) 32 := by
    refine ⟨⟨by decide, by decide⟩, ⟨hgrid, by omega⟩, by decide, by decide⟩
  simp only [reverseThreads, hn, hblocks, hu, launch_of_valid hvalid]
  rfl

/-- The number of an element: its array, the row and the number of its tile, and its column. -/
lemma tile_index {ntt tile lane row : ℕ} (hntt : ntt < numNtts) (htile : tile < 2 ^ k)
    (hrow : row < 32) :
    u32 (ntt * 2 ^ (k + 10)) + u32 (tile * 32) + lane + u32 (row * (2 ^ (k + 10) / 32)) =
      ((ntt * 32 + row) * 2 ^ k + tile) * 32 + lane := by
  have hpow : 2 ^ k < 2 ^ 22 := Nat.pow_lt_pow_right (by decide) hk
  have harray : ntt * 2 ^ (k + 10) < 2 ^ 32 := by
    calc ntt * 2 ^ (k + 10) < numNtts * 2 ^ (k + 10) :=
          Nat.mul_lt_mul_of_pos_right hntt (Nat.two_pow_pos _)
      _ ≤ 2 ^ 32 := hsize
  have hstride : 2 ^ (k + 10) / 32 = 2 ^ k * 32 := by
    rw [two_pow_tiles]
    omega
  have hrows : row * (2 ^ k * 32) ≤ 31 * (2 ^ k * 32) := Nat.mul_le_mul_right _ (by omega)
  rw [hstride, u32_of_lt harray, u32_of_lt (by omega), u32_of_lt (by omega), two_pow_tiles]
  ring

lemma reverseDst_eq {x : Thread × ℕ × Bool} (hx : x.1.x < 2 ^ k * numNtts) (ht : x.1.t < 32)
    (hi : x.2.1 < 32) :
    reverseDst (k + 10) (2 ^ (k + 10)) x =
      ((x.1.x / 2 ^ k * 32 + x.2.1) * 2 ^ k +
        (if x.2.2 then x.1.x % 2 ^ k else reverseBits (x.1.x % 2 ^ k) k)) * 32 + x.1.t := by
  have hntt : x.1.x / 2 ^ k < numNtts := Nat.div_lt_of_lt_mul hx
  have hwarp : x.1.x % 2 ^ k < 2 ^ k := Nat.mod_lt _ (Nat.two_pow_pos k)
  have hlane : x.1.t &&& 31 = x.1.t := Nat.and_two_pow_sub_one_of_lt_two_pow (n := 5) ht
  simp only [reverseDst, reverseWarp_eq hk, hlane]
  refine tile_index hk hsize hntt ?_ hi
  split_ifs
  · exact hwarp
  · exact reverseBits_lt _ _

/-- The element comes from the index with all bits reversed, in the same array. -/
lemma reverseSrc_eq {x : Thread × ℕ × Bool} (hx : x.1.x < 2 ^ k * numNtts) (ht : x.1.t < 32)
    (hi : x.2.1 < 32) {ntt j : ℕ} (hj : j < 2 ^ (k + 10))
    (hdst : reverseDst (k + 10) (2 ^ (k + 10)) x = ntt * 2 ^ (k + 10) + j) :
    reverseSrc (k + 10) (2 ^ (k + 10)) x = ntt * 2 ^ (k + 10) + reverseBits j (k + 10) := by
  have hlane : x.1.t &&& 31 = x.1.t := Nat.and_two_pow_sub_one_of_lt_two_pow (n := 5) ht
  have hntt : x.1.x / 2 ^ k < numNtts := Nat.div_lt_of_lt_mul hx
  set warp := x.1.x % 2 ^ k with hwarp_def
  have hwarp : warp < 2 ^ k := Nat.mod_lt _ (Nat.two_pow_pos k)
  set tile := if x.2.2 then warp else reverseBits warp k with htile_def
  have htile : tile < 2 ^ k := by
    rw [htile_def]
    split_ifs
    · exact hwarp
    · exact reverseBits_lt _ _
  have hother : (if x.2.2 then reverseBits warp k else warp) = reverseBits tile k := by
    rw [htile_def]
    split_ifs
    · rfl
    · rw [reverseBits_reverseBits hwarp]
  have hsrc : reverseSrc (k + 10) (2 ^ (k + 10)) x =
      ((x.1.x / 2 ^ k * 32 + reverseBits x.1.t 5) * 2 ^ k + reverseBits tile k) * 32 +
        reverseBits x.2.1 5 := by
    simp only [reverseSrc, reverseWarp_eq hk, hlane, reversedLanes_getD ht, reversedLanes_getD hi,
      ← hwarp_def, hother]
    exact tile_index hk hsize hntt (reverseBits_lt _ _) (reverseBits_lt _ 5)
  -- the digits of the index are those of the store
  have hlocal : (x.2.1 * 2 ^ k + tile) * 32 + x.1.t < 2 ^ (k + 10) := by
    have hrow : x.2.1 * 2 ^ k ≤ 31 * 2 ^ k := Nat.mul_le_mul_right _ (by omega)
    rw [two_pow_tiles]
    omega
  have hdst' : reverseDst (k + 10) (2 ^ (k + 10)) x =
      x.1.x / 2 ^ k * 2 ^ (k + 10) + ((x.2.1 * 2 ^ k + tile) * 32 + x.1.t) := by
    rw [reverseDst_eq hk hsize hx ht hi, two_pow_tiles]
    ring
  obtain ⟨hj_eq, hntt_eq⟩ : j = (x.2.1 * 2 ^ k + tile) * 32 + x.1.t ∧ ntt = x.1.x / 2 ^ k := by
    refine Scatter.stride_inj hj hlocal ?_
    rw [add_comm, ← hdst, hdst', add_comm]
  have hsplit : reverseBits ((x.2.1 * 2 ^ k + tile) * 32 + x.1.t) (k + 10) =
      reverseBits x.1.t 5 * 2 ^ (5 + k) + (reverseBits tile k * 2 ^ 5 + reverseBits x.2.1 5) := by
    have hbits : k + 10 = 5 + k + 5 := by omega
    rw [hbits, ← reverseBits_mul_add htile]
    exact reverseBits_mul_add (m := 5) ht
  rw [hsrc, hj_eq, hntt_eq, hsplit, two_pow_tiles, pow_add 2 5 k]
  ring

/-- The stores hit every element once. -/
lemma covers_reverseStores :
    Covers (reverseStores (k + 10) (2 ^ (k + 10)) (threads 1 (2 ^ k * numNtts) 32))
      (reverseDst (k + 10) (2 ^ (k + 10))) 0 (numNtts * 2 ^ (k + 10)) := by
  have hpos : 0 < 2 ^ k := Nat.two_pow_pos k
  have htotal : numNtts * 2 ^ (k + 10) = numNtts * 32 * 2 ^ k * 32 := by
    rw [two_pow_tiles]
    ring
  set tile : Thread × ℕ × Bool → ℕ := fun x =>
    if x.2.2 then x.1.x % 2 ^ k else reverseBits (x.1.x % 2 ^ k) k with htile
  have htile_lt : ∀ x, tile x < 2 ^ k := by
    intro x
    simp only [htile]
    split_ifs
    · exact Nat.mod_lt _ hpos
    · exact reverseBits_lt _ _
  rw [htotal, covers_congr (f := fun x =>
    ((x.1.x / 2 ^ k * 32 + x.2.1) * 2 ^ k + tile x) * 32 + x.1.t)]
  · refine covers_stride (bijOn_pair ?_ ?_ ?_)
    · intro x hx
      obtain ⟨⟨-, hblock, ht⟩, hi, -⟩ := (mem_reverseStores hk).mp hx
      have hntt : x.1.x / 2 ^ k < numNtts := Nat.div_lt_of_lt_mul hblock
      refine ⟨?_, ht⟩
      calc (x.1.x / 2 ^ k * 32 + x.2.1) * 2 ^ k + tile x
          < (x.1.x / 2 ^ k * 32 + x.2.1) * 2 ^ k + 2 ^ k := Nat.add_lt_add_left (htile_lt x) _
        _ = (x.1.x / 2 ^ k * 32 + x.2.1 + 1) * 2 ^ k := by ring
        _ ≤ numNtts * 32 * 2 ^ k := Nat.mul_le_mul_right _ (by omega)
    · intro x hx x' hx' hhi hlo
      obtain ⟨⟨hy, -, -⟩, hi, hside⟩ := (mem_reverseStores hk).mp hx
      obtain ⟨⟨hy', -, -⟩, hi', hside'⟩ := (mem_reverseStores hk).mp hx'
      obtain ⟨htiles, hrow⟩ := Scatter.stride_inj (htile_lt x) (htile_lt x')
        (by rw [add_comm, hhi, add_comm])
      obtain ⟨hi_eq, hntt⟩ := Scatter.stride_inj hi hi' (by rw [add_comm, hrow, add_comm])
      obtain ⟨⟨y, x, t⟩, i, side⟩ := x
      obtain ⟨⟨y', x', t'⟩, i', side'⟩ := x'
      have hwarp : x % 2 ^ k < 2 ^ k := Nat.mod_lt _ hpos
      have hwarp' : x' % 2 ^ k < 2 ^ k := Nat.mod_lt _ hpos
      -- a tile is stored to by the warp of the smaller of the two tiles
      have hsame : x % 2 ^ k = x' % 2 ^ k ∧ side = side' := by
        cases side <;> cases side' <;>
          simp only [htile, if_true, if_false, Bool.false_eq_true] at htiles hside hside' ⊢
        · have h := congrArg (fun r => reverseBits r k) htiles
          simp only [reverseBits_reverseBits hwarp, reverseBits_reverseBits hwarp'] at h
          exact ⟨h, trivial⟩
        · rw [← htiles, reverseBits_reverseBits hwarp] at hside'
          omega
        · rw [htiles, reverseBits_reverseBits hwarp'] at hside
          omega
        · exact ⟨htiles, trivial⟩
      have hblock : x = x' := by
        rw [← Nat.div_add_mod x (2 ^ k), ← Nat.div_add_mod x' (2 ^ k), hntt, hsame.1]
      obtain rfl : y = y' := (Nat.lt_one_iff.mp hy).trans (Nat.lt_one_iff.mp hy').symm
      obtain rfl : t = t' := hlo
      obtain rfl : i = i' := hi_eq
      rw [hblock, hsame.2]
    · intro h hh t ht
      set r := h / 2 ^ k with hr
      have hrow : r < numNtts * 32 := Nat.div_lt_of_lt_mul (by rwa [mul_comm])
      have hj : h % 2 ^ k < 2 ^ k := Nat.mod_lt _ hpos
      have hindex : (r / 32 * 32 + r % 32) * 2 ^ k + h % 2 ^ k = h := by
        rw [Nat.div_add_mod', hr, Nat.div_add_mod']
      have hblock : ∀ w < 2 ^ k, r / 32 * 2 ^ k + w < 2 ^ k * numNtts ∧
          (r / 32 * 2 ^ k + w) / 2 ^ k = r / 32 ∧ (r / 32 * 2 ^ k + w) % 2 ^ k = w := by
        intro w hw
        refine ⟨?_, ?_, ?_⟩
        · calc r / 32 * 2 ^ k + w < r / 32 * 2 ^ k + 2 ^ k := Nat.add_lt_add_left hw _
            _ = 2 ^ k * (r / 32 + 1) := by ring
            _ ≤ 2 ^ k * numNtts := Nat.mul_le_mul_left _ (by omega)
        · rw [add_comm, Nat.add_mul_div_right _ _ hpos, Nat.div_eq_of_lt hw, zero_add]
        · rw [add_comm, Nat.add_mul_mod_self_right, Nat.mod_eq_of_lt hw]
      -- the smaller of the two tiles has the warp
      by_cases hside : reverseBits (h % 2 ^ k) k ≤ h % 2 ^ k
      · obtain ⟨hlt, hdiv, hmod⟩ := hblock _ (reverseBits_lt (h % 2 ^ k) k)
        refine ⟨(⟨0, r / 32 * 2 ^ k + reverseBits (h % 2 ^ k) k, t⟩, r % 32, false), ?_, ?_, rfl⟩
        · rw [mem_reverseStores hk]
          refine ⟨⟨zero_lt_one, hlt, ht⟩, Nat.mod_lt _ (by decide), ?_⟩
          simpa [hmod, reverseBits_reverseBits hj] using hside
        · simpa [htile, hdiv, hmod, reverseBits_reverseBits hj] using hindex
      · obtain ⟨hlt, hdiv, hmod⟩ := hblock _ hj
        refine ⟨(⟨0, r / 32 * 2 ^ k + h % 2 ^ k, t⟩, r % 32, true), ?_, ?_, rfl⟩
        · rw [mem_reverseStores hk]
          refine ⟨⟨zero_lt_one, hlt, ht⟩, Nat.mod_lt _ (by decide), ?_⟩
          simpa [hmod] using hside
        · simpa [htile, hdiv, hmod] using hindex
  · intro x hx
    obtain ⟨⟨-, hblock, ht⟩, hi, -⟩ := (mem_reverseStores hk).mp hx
    exact reverseDst_eq hk hsize hblock ht hi

end Tiles

/-! ### Reversal -/

/-- What the launch is for: it stores once at every element of the arrays, and leaves every array
with the bits of its indices reversed. -/
structure ReversesIndexBits (logN numNtts : ℕ) : Prop where
  covers : ∃ ths degree, reverseThreads logN numNtts = some ths ∧ shlUnsigned logN = some degree ∧
    Covers (reverseStores logN degree ths) (reverseDst logN degree) 0 (numNtts * 2 ^ logN)
  result : ∀ b : DeviceBuffer GoldilocksField, numNtts * 2 ^ logN ≤ b.len →
    ∃ b', reverseIndexBitsInplace logN numNtts b = some b' ∧ ∀ ntt < numNtts, ∀ j < 2 ^ logN,
      b'.cell (ntt * 2 ^ logN + j) = b.cell (ntt * 2 ^ logN + reverseBits j logN)

lemma reversesIndexBits_of_le {logN numNtts : ℕ} (hlog : 10 ≤ logN) (hlog' : logN < 32)
    (hpos : 0 < numNtts) (hsize : numNtts * 2 ^ logN ≤ 2 ^ 32) :
    ReversesIndexBits logN numNtts := by
  obtain ⟨k, rfl⟩ := Nat.exists_eq_add_of_le' hlog
  have hk : k < 22 := by omega
  have hthreads := reverseThreads_eq hk hsize hpos
  have hdegree : shlUnsigned (k + 10) = some (2 ^ (k + 10)) := if_pos hlog'
  have hcovers := covers_reverseStores hk hsize
  constructor
  · exact ⟨_, _, hthreads, hdegree, hcovers⟩
  · intro b hlen
    obtain ⟨b', hb', -, hcell⟩ := b.storeAll_of_covers hcovers hlen
      (fun x => b.cell (reverseSrc (k + 10) (2 ^ (k + 10)) x)) fun _ => List.mem_map
    refine ⟨b', ?_, ?_⟩
    · rw [reverseIndexBitsInplace, hthreads, hdegree]
      exact hb'
    · intro ntt hntt j hj
      have hlt : ntt * 2 ^ (k + 10) + j < numNtts * 2 ^ (k + 10) := by
        calc ntt * 2 ^ (k + 10) + j < ntt * 2 ^ (k + 10) + 2 ^ (k + 10) := Nat.add_lt_add_left hj _
          _ = (ntt + 1) * 2 ^ (k + 10) := by ring
          _ ≤ numNtts * 2 ^ (k + 10) := Nat.mul_le_mul_right _ hntt
      obtain ⟨x, hx, hdst⟩ := hcovers.exists_eq (Nat.zero_le _) hlt
      obtain ⟨⟨-, hblock, ht⟩, hi, -⟩ := (mem_reverseStores hk).mp hx
      rw [← hdst, hcell x hx, reverseSrc_eq hk hsize hblock ht hi hj hdst]

/-- The launch undoes itself. -/
structure ReversesIndexBitsTwice (logN numNtts : ℕ) : Prop
    extends ReversesIndexBits logN numNtts where
  twice : ∀ b : DeviceBuffer GoldilocksField, numNtts * 2 ^ logN ≤ b.len →
    ∃ b' b'', reverseIndexBitsInplace logN numNtts b = some b' ∧
      reverseIndexBitsInplace logN numNtts b' = some b'' ∧
      ∀ a < numNtts * 2 ^ logN, b''.cell a = b.cell a

lemma reverseIndexBitsInplace_len {logN numNtts : ℕ} {b b' : DeviceBuffer F}
    (h : reverseIndexBitsInplace logN numNtts b = some b') : b'.len = b.len := by
  simp only [reverseIndexBitsInplace, Option.bind_eq_bind, Option.bind_eq_some_iff] at h
  obtain ⟨ths, -, degree, -, hstore⟩ := h
  exact DeviceBuffer.storeAll_len hstore

lemma ReversesIndexBits.twice {logN numNtts : ℕ} (h : ReversesIndexBits logN numNtts) :
    ReversesIndexBitsTwice logN numNtts := by
  refine ⟨h, fun b hlen => ?_⟩
  obtain ⟨b', hb', hcell'⟩ := h.result b hlen
  have hlen' : numNtts * 2 ^ logN ≤ b'.len := by rwa [reverseIndexBitsInplace_len hb']
  obtain ⟨b'', hb'', hcell''⟩ := h.result b' hlen'
  refine ⟨b', b'', hb', hb'', fun a ha => ?_⟩
  have hpos : 0 < 2 ^ logN := Nat.two_pow_pos logN
  have hntt : a / 2 ^ logN < numNtts := Nat.div_lt_of_lt_mul (by rwa [mul_comm])
  have hj : a % 2 ^ logN < 2 ^ logN := Nat.mod_lt a hpos
  have ha : a = a / 2 ^ logN * 2 ^ logN + a % 2 ^ logN := (Nat.div_add_mod' a (2 ^ logN)).symm
  calc b''.cell a = b''.cell (a / 2 ^ logN * 2 ^ logN + a % 2 ^ logN) := congrArg b''.cell ha
    _ = b'.cell (a / 2 ^ logN * 2 ^ logN + reverseBits (a % 2 ^ logN) logN) :=
      hcell'' _ hntt _ hj
    _ = b.cell (a / 2 ^ logN * 2 ^ logN +
          reverseBits (reverseBits (a % 2 ^ logN) logN) logN) :=
      hcell' _ hntt _ (reverseBits_lt _ _)
    _ = b.cell (a / 2 ^ logN * 2 ^ logN + a % 2 ^ logN) := by rw [reverseBits_reverseBits hj]
    _ = b.cell a := congrArg b.cell ha.symm

/-- A launch stores to arrays whose first element has a 32-bit number. -/
lemma reverseDst_lt {k : ℕ} (hk : k < 22) {x : Thread × ℕ × Bool} (hi : x.2.1 < 32) :
    reverseDst (k + 10) (2 ^ (k + 10)) x < 2 ^ 32 := by
  have hpow : 2 ^ k < 2 ^ 22 := Nat.pow_lt_pow_right (by decide) hk
  have hwarp : x.1.x % 2 ^ k < 2 ^ k := Nat.mod_lt _ (Nat.two_pow_pos k)
  have hlane : x.1.t &&& 31 < 32 := Nat.and_lt_two_pow (n := 5) _ (by decide)
  have hstart : u32 (x.1.x / 2 ^ k * 2 ^ (k + 10)) + 2 ^ (k + 10) ≤ 2 ^ 32 :=
    u32_mul_two_pow_add_le _ (by omega)
  have htile : (if x.2.2 then x.1.x % 2 ^ k else reverseBits (x.1.x % 2 ^ k) k) < 2 ^ k := by
    split_ifs
    · exact hwarp
    · exact reverseBits_lt _ _
  have hstride : 2 ^ (k + 10) / 32 = 2 ^ k * 32 := by
    rw [two_pow_tiles]
    omega
  have hrow : x.2.1 * (2 ^ k * 32) ≤ 31 * (2 ^ k * 32) := Nat.mul_le_mul_right _ (by omega)
  simp only [reverseDst, reverseWarp_eq hk, hstride]
  rw [two_pow_tiles] at hstart ⊢
  rw [u32_of_lt (x := _ * 32) (by omega), u32_of_lt (x := x.2.1 * _) (by omega)]
  omega

/-- The element with the first longer number would not be stored to. -/
lemma ReversesIndexBits.size_le {logN numNtts : ℕ} (hlog : 10 ≤ logN) (hlt : logN < 32)
    (h : ReversesIndexBits logN numNtts) : numNtts * 2 ^ logN ≤ 2 ^ 32 := by
  by_contra hsize
  obtain ⟨ths, degree, -, hdegree, hcovers⟩ := h.covers
  obtain ⟨k, rfl⟩ := Nat.exists_eq_add_of_le' hlog
  obtain rfl : 2 ^ (k + 10) = degree := by
    rw [shlUnsigned, if_pos hlt] at hdegree
    exact Option.some.inj hdegree
  obtain ⟨x, hx, hdst⟩ := hcovers.exists_eq (Nat.zero_le _) (not_le.mp hsize)
  have hi : x.2.1 < 32 := by
    have hmem := (List.mem_product.mp (List.mem_of_mem_filter hx)).2
    exact List.mem_range.mp (List.mem_product.mp hmem).1
  exact (reverseDst_lt (by omega) hi).ne hdst

/-- From 1024 elements on, the launch permutes every array by the reversal of the bits, and undoes
itself, exactly when there is an array and all elements have 32-bit numbers. -/
theorem reversesIndexBitsTwice_iff {logN numNtts : ℕ} (hlog : 10 ≤ logN) :
    ReversesIndexBitsTwice logN numNtts ↔
      logN < 32 ∧ 0 < numNtts ∧ numNtts * 2 ^ logN ≤ 2 ^ 32 := by
  constructor
  · intro h
    obtain ⟨ths, degree, hths, hdegree, -⟩ := h.covers
    have hlt : logN < 32 := by
      by_contra hge
      rw [shlUnsigned, if_neg hge] at hdegree
      cases hdegree
    have hpos : 0 < numNtts := by
      rw [Nat.pos_iff_ne_zero]
      rintro rfl
      have hzero : ∀ blocks, launch 1 (u32 (blocks * 0)) 32 = .error .invalidConfiguration := by
        intro blocks
        apply if_neg
        rintro ⟨-, ⟨hgrid, -⟩, -⟩
        cases hgrid
      simp only [reverseThreads, hzero] at hths
      cases hths
    exact ⟨hlt, hpos, h.size_le hlog hlt⟩
  · rintro ⟨hlt, hpos, hsize⟩
    exact (reversesIndexBits_of_le hlog hlt hpos hsize).twice

theorem reversesIndexBitsTwice_iff_ten :
    ReversesIndexBitsTwice 10 1 ↔ 10 < 32 ∧ 0 < 1 ∧ 1 * 2 ^ 10 ≤ 2 ^ 32 :=
  reversesIndexBitsTwice_iff (by decide)

/-- The wires of the standard configuration with 33554432 rows are longer. -/
theorem not_reversesIndexBitsTwice_wires : ¬ ReversesIndexBitsTwice 25 135 := by
  intro h
  have hsize : 135 * 2 ^ 25 ≤ 2 ^ 32 := h.size_le (by decide) (by decide)
  exact absurd hsize (by decide)

/-- Below 1024 elements a tile is larger than an array, and the last store of its only warp is
outside the array. -/
lemma le_of_reversesIndexBits {logN : ℕ} (h : ReversesIndexBits logN 1) : 10 ≤ logN := by
  by_contra hlt
  obtain ⟨ths, degree, hths, hdegree, hcovers⟩ := h.covers
  have hpow : 2 ^ logN ≤ 2 ^ 9 := Nat.pow_le_pow_right (by decide) (by omega)
  have hpos : 0 < 2 ^ logN := Nat.two_pow_pos logN
  have hn : u32 (1 <<< (logN % 32)) = 2 ^ logN := by
    rw [Nat.mod_eq_of_lt (by omega), Nat.one_shiftLeft, u32_of_lt (by omega)]
  have hblocks : u32 (2 ^ logN + 32 * 32 - 1) / (32 * 32) = 1 := by
    rw [u32_of_lt (by omega)]
    omega
  obtain rfl : 2 ^ logN = degree := by
    rw [shlUnsigned, if_pos (by omega)] at hdegree
    exact Option.some.inj hdegree
  obtain rfl : threads 1 1 32 = ths := by
    have hvalid : ValidLaunch 1 1 32 := by decide
    have hu : u32 (1 * 1) = 1 := rfl
    simp only [reverseThreads, hn, hblocks, hu, launch_of_valid hvalid] at hths
    exact Option.some.inj hths
  have hwarp : reverseWarp logN (2 ^ logN) 0 = ⟨0, 0, 0⟩ := by
    simp only [reverseWarp, hblocks, Nat.zero_div, Nat.zero_mod, reverseBits_zero]
  have hmem : ((⟨0, 0, 31⟩, 31, false) : Thread × ℕ × Bool) ∈
      reverseStores logN (2 ^ logN) (threads 1 1 32) := by
    simp [reverseStores, hwarp, List.mem_filter, List.mem_product]
  have hdst : reverseDst logN (2 ^ logN) (⟨0, 0, 31⟩, 31, false) = 31 + 31 * (2 ^ logN / 32) := by
    have hu : u32 (31 * (2 ^ logN / 32)) = 31 * (2 ^ logN / 32) := u32_of_lt (by omega)
    have hzero : u32 0 = 0 := rfl
    simp only [reverseDst, hwarp, hu, zero_mul, hzero, Bool.false_eq_true, if_false, zero_add]
    rfl
  have hinside := hcovers.lt hmem
  rw [hdst, one_mul] at hinside
  by_cases hrow : logN < 5
  · have hsmall : 2 ^ logN < 2 ^ 5 := Nat.pow_lt_pow_right (by decide) hrow
    omega
  · have hrows : 2 ^ logN = 2 ^ (logN - 5) * 32 := by
      rw [(by rfl : 32 = 2 ^ 5), ← pow_add]
      congr 1
      omega
    omega

end MegaZK
