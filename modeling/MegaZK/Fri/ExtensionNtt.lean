import MegaZK.BitReversal
import MegaZK.Fri.Extension
import MegaZK.Kernel
import MegaZK.Lib.Butterfly
import MegaZK.Lib.Fold

/-! # The transform over the extension

`ntt_extension_inplace` launches one kernel for each stage of a butterfly network. The coefficients
are in order and the values come with the bits of their index reversed. -/

namespace MegaZK

open Grid Horner QuadraticExtension

/-! ### Source -/

/-- The two elements that a thread exchanges, and the factor of the second one. -/
structure Exchange where
  aIdx : ℕ
  bIdx : ℕ
  twiddle : QuadraticExtension

/-- A thread of `n2b_1_stage_e`: what it exchanges, if anything. It does not return if the loop for
the twiddle does not. -/
def n2b1StageE (logN blocksPerNtt startStage : ℕ) (th : Thread) : Option (List Exchange) :=
  let nttIdx := th.x / blocksPerNtt
  let bidInNtt := th.x - nttIdx * blocksPerNtt
  let tidInNtt := u32 (th.t + bidInNtt * 128)
  if 1 <<< (logN - 1) ≤ tidInNtt then some []
  else
    let stride := u32 (1 <<< logN)
    let logExchgRegionSz := logN - startStage
    let exchgRegion := tidInNtt >>> (logExchgRegionSz - 1)
    let tidInExchgRegion := tidInNtt - exchgRegion <<< (logExchgRegionSz - 1)
    let exchgStride := 1 <<< (logExchgRegionSz - 1)
    let aIdx := u32 (tidInExchgRegion + exchgRegion * u32 (1 <<< logExchgRegionSz))
    let bIdx := u32 (aIdx + exchgStride)
    let pow := u32 (exchgRegion * exchgStride)
    let pow := u32 (reverseBits pow (logN - 1) <<< (logN - 1 - startStage))
    let rootUnity := squareTimes (33 - logN) (⟨0, 15659105665374529263⟩ : QuadraticExtension)
    (powWhile (2 ^ 32) pow 33 1 pow rootUnity 1).map fun twiddle =>
      [⟨u32 (nttIdx * stride) + aIdx, u32 (nttIdx * stride) + bIdx, twiddle⟩]

/-- `exchg_dit_e`: the sum is stored at the first index and the difference at the second. -/
def Exchange.result (cell : ℕ → QuadraticExtension) : Exchange × Bool → QuadraticExtension
  | (e, false) => cell e.aIdx + cell e.bIdx * e.twiddle
  | (e, true) => cell e.aIdx - cell e.bIdx * e.twiddle

/-- Where a result is stored. -/
def Exchange.address : Exchange × Bool → ℤ
  | (e, false) => e.aIdx
  | (e, true) => e.bIdx

/-- The stores of a list of exchanges. -/
def exchangeStores (exchanges : List Exchange) : List (Exchange × Bool) :=
  exchanges.flatMap fun e => [(e, false), (e, true)]

/-- One launch of `n2b_1_stage_e`, if it returns. -/
def nttStage (logN blocksPerNtt blocks stage : ℕ) (b : DeviceBuffer QuadraticExtension) :
    Option (DeviceBuffer QuadraticExtension) := do
  let ths ← (launch 1 blocks 128).toOption
  let exchanges ← ths.mapM (n2b1StageE logN blocksPerNtt stage)
  (b.store (exchangeStores exchanges.flatten) Exchange.address (Exchange.result b.cell)).toOption

/-- `ntt_extension_inplace`. A shift of a `u32` by 32 is one by zero. -/
def nttExtensionInplace (logN numNtts : ℕ) (b : DeviceBuffer QuadraticExtension) :
    Option (DeviceBuffer QuadraticExtension) :=
  let threads := 128
  let n := u32 (1 <<< (logN % 32))
  let blocksPerNtt := u32 (n + 2 * threads - 1) / (2 * threads)
  let blocks := u32 (blocksPerNtt * numNtts)
  (List.range logN).foldlM (fun b stage => nttStage logN blocksPerNtt blocks stage b) b

/-! ### Threads -/

/-- What the thread with number `tid` exchanges in a stage on pairs of blocks of `m` elements. -/
def exchangeOf (logN stage m tid : ℕ) : Exchange where
  aIdx := tid / m * (2 * m) + tid % m
  bIdx := tid / m * (2 * m) + tid % m + m
  twiddle := primitiveRootOfUnity logN ^ (reverseBits (tid / m) stage * m)

lemma numbering_reverseBits : Butterfly.Numbering reverseBits := by
  have hlow : ∀ r s, reverseBits (2 * r) (s + 1) = reverseBits r s := by
    intro r s
    have h := @reverseBits_mul_add r 0 s 1 (by decide)
    have hzero : reverseBits 0 1 = 0 := rfl
    rwa [hzero, zero_mul, zero_add, add_zero, pow_one, mul_comm] at h
  have hhigh : ∀ r s, reverseBits (2 * r + 1) (s + 1) = reverseBits r s + 2 ^ s := by
    intro r s
    have h := @reverseBits_mul_add r 1 s 1 (by decide)
    have hone : reverseBits 1 1 = 1 := rfl
    rwa [hone, one_mul, pow_one, mul_comm, add_comm (2 ^ s)] at h
  exact ⟨rfl, fun r s _ => hlow r s, fun r s _ => hhigh r s⟩

lemma reverseBits_mul_two_pow (r s k : ℕ) : reverseBits (r * 2 ^ k) (s + k) = reverseBits r s := by
  have hzero : reverseBits 0 k = 0 := by
    apply Nat.eq_of_testBit_eq
    intro i
    rw [testBit_reverseBits]
    simp
  have h := @reverseBits_mul_add r 0 s k (Nat.two_pow_pos k)
  rwa [hzero, zero_mul, zero_add, add_zero] at h

/-- Every thread of the grid below half the number of elements exchanges two of them, and the others
none. -/
lemma n2b1StageE_eq {logN blocks stage : ℕ} (hlog : logN ≤ 32) (hstage : stage < logN)
    (hblocks : blocks ≤ 2 ^ 23) {th : Thread} (hth : th ∈ threads 1 blocks 128) :
    n2b1StageE logN blocks stage th = some
      (if th.x * 128 + th.t < 2 ^ (logN - 1) then
        [exchangeOf logN stage (2 ^ (logN - 1 - stage)) (th.x * 128 + th.t)] else []) := by
  obtain ⟨-, hx, ht⟩ := mem_threads.mp hth
  set tid := th.x * 128 + th.t with htid
  obtain ⟨k, rfl⟩ : ∃ k, logN = stage + 1 + k := ⟨logN - (stage + 1), by omega⟩
  have hhalf : stage + 1 + k - 1 = stage + k := by omega
  have hk : stage + k - stage = k := by omega
  have hsize : stage + 1 + k - stage = k + 1 := by omega
  have hntt : th.x / blocks = 0 := Nat.div_eq_of_lt hx
  have hnumber : u32 (th.t + (th.x - 0 * blocks) * 128) = tid := by
    rw [u32_of_lt (by omega)]
    omega
  rw [n2b1StageE, hntt, hnumber, hhalf, hk, hsize, Nat.one_shiftLeft]
  by_cases hlt : tid < 2 ^ (stage + k)
  · set r := tid / 2 ^ k with hr
    set t := tid % 2 ^ k with ht
    have hword : 2 ^ (stage + k) * 2 ≤ 2 ^ 32 := by
      rw [← pow_succ]
      exact Nat.pow_le_pow_right (by decide) (by omega)
    have htid : r * 2 ^ k + t = tid := Nat.div_add_mod' tid (2 ^ k)
    have hrlt : r < 2 ^ stage := Nat.div_lt_of_lt_mul (by rwa [mul_comm, ← pow_add])
    have htlt : t < 2 ^ k := Nat.mod_lt _ (Nat.two_pow_pos k)
    have hshift : tid >>> k = r := Nat.shiftRight_eq_div_pow tid k
    have hrest : tid - r <<< k = t := by
      rw [Nat.shiftLeft_eq]
      omega
    -- block `0` is the only one where its size does not fit
    have hblock : r * u32 (2 ^ (k + 1)) = r * (2 * 2 ^ k) := by
      rw [← pow_succ']
      by_cases hbig : k + 1 < 32
      · rw [u32_of_lt (Nat.pow_lt_pow_right (by decide) hbig)]
      · have hzero : stage = 0 := by omega
        rw [hzero, pow_zero, Nat.lt_one_iff] at hrlt
        rw [hrlt, zero_mul, zero_mul]
    have hbound : r * (2 * 2 ^ k) + t + 2 ^ k < 2 ^ 32 := by
      have hmul : (r + 1) * 2 ^ k ≤ 2 ^ (stage + k) := by
        rw [pow_add]
        exact Nat.mul_le_mul_right _ hrlt
      rw [add_mul, one_mul] at hmul
      have hdouble : r * (2 * 2 ^ k) = 2 * (r * 2 ^ k) := by ring
      omega
    have ha : u32 (t + r * (2 * 2 ^ k)) = r * (2 * 2 ^ k) + t := by
      rw [u32_of_lt (by omega), add_comm]
    have hpow : u32 (r * 2 ^ k) = r * 2 ^ k := u32_of_lt (by omega)
    have hrev : reverseBits r stage * 2 ^ k < 2 ^ 31 := by
      calc reverseBits r stage * 2 ^ k < 2 ^ stage * 2 ^ k :=
            Nat.mul_lt_mul_of_pos_right (reverseBits_lt r stage) (Nat.two_pow_pos k)
        _ = 2 ^ (stage + k) := (pow_add 2 stage k).symm
        _ ≤ 2 ^ 31 := Nat.pow_le_pow_right (by decide) (by omega)
    have hexp : u32 (reverseBits (r * 2 ^ k) (stage + k) <<< k) = reverseBits r stage * 2 ^ k := by
      rw [reverseBits_mul_two_pow, Nat.shiftLeft_eq, u32_of_lt (by omega)]
    have hoffset : u32 0 = 0 := rfl
    have hroot : squareTimes (33 - (stage + 1 + k)) (⟨0, 15659105665374529263⟩ : QuadraticExtension) =
        primitiveRootOfUnity (stage + 1 + k) := rfl
    rw [if_neg (not_le.mpr hlt), if_pos hlt]
    simp only [Nat.add_sub_cancel, hshift, hrest, hblock, Nat.one_shiftLeft, ha, hpow, hexp, hroot,
      u32_of_lt hbound, powWhile_eq hrev (by decide : 2 ^ 31 < 2 ^ 32) (by decide : 31 < 33),
      Option.map_some, zero_mul, hoffset, zero_add]
    rfl
  · rw [if_pos (not_lt.mp hlt), if_neg hlt]

/-! ### Stages -/

section Stage

variable {logN blocks stage : ℕ} (hlog : logN ≤ 32) (hstage : stage < logN) (hpos : 0 < blocks)
  (hblocks : blocks ≤ 2 ^ 23)

/-- What the threads of a launch exchange. -/
def stageExchanges (logN blocks stage : ℕ) : List Exchange :=
  (threads 1 blocks 128).flatMap fun th =>
    if th.x * 128 + th.t < 2 ^ (logN - 1) then
      [exchangeOf logN stage (2 ^ (logN - 1 - stage)) (th.x * 128 + th.t)]
    else []

lemma mem_stageExchanges {e : Exchange} :
    e ∈ stageExchanges logN blocks stage ↔ ∃ tid < blocks * 128, tid < 2 ^ (logN - 1) ∧
      e = exchangeOf logN stage (2 ^ (logN - 1 - stage)) tid := by
  rw [stageExchanges, List.mem_flatMap]
  constructor
  · rintro ⟨th, hth, he⟩
    obtain ⟨-, hx, ht⟩ := mem_threads.mp hth
    split_ifs at he with hlt
    · exact ⟨_, by omega, hlt, List.mem_singleton.mp he⟩
    · cases he
  · rintro ⟨tid, hgrid, hlt, rfl⟩
    refine ⟨⟨0, tid / 128, tid % 128⟩, mem_threads.mpr ⟨zero_lt_one, ?_, ?_⟩, ?_⟩
    · exact Nat.div_lt_of_lt_mul (by rwa [mul_comm])
    · exact Nat.mod_lt _ (by decide)
    · simp only [Nat.div_add_mod', if_pos hlt, List.mem_singleton]

lemma mem_exchangeStores {exchanges : List Exchange} {p : Exchange × Bool} :
    p ∈ exchangeStores exchanges ↔ p.1 ∈ exchanges := by
  obtain ⟨e, side⟩ := p
  cases side <;> simp [exchangeStores]

/-- Where a thread stores: in the first or the second half of its pair of blocks. -/
lemma address_exchangeOf (logN stage m tid : ℕ) (side : Bool) :
    Exchange.address (exchangeOf logN stage m tid, side) =
      ((2 * (tid / m) + side.toNat) * m + tid % m : ℕ) := by
  cases side <;> simp only [Exchange.address, exchangeOf, Bool.toNat_false, Bool.toNat_true] <;>
    congr 1 <;> ring

include hlog hstage hpos hblocks

/-- A launch returns, and stores the results of all threads unless one is out of bounds. -/
lemma nttStage_eq (b : DeviceBuffer QuadraticExtension) :
    nttStage logN blocks blocks stage b =
      (b.store (exchangeStores (stageExchanges logN blocks stage)) Exchange.address
        (Exchange.result b.cell)).toOption := by
  have hvalid : ValidLaunch 1 blocks 128 := by
    refine ⟨⟨by decide, by decide⟩, ⟨hpos, by omega⟩, by decide, by decide⟩
  rw [nttStage, launch_of_valid hvalid]
  change (do
    let exchanges ← (threads 1 blocks 128).mapM (n2b1StageE logN blocks stage)
    (b.store (exchangeStores exchanges.flatten) Exchange.address (Exchange.result b.cell)).toOption)
    = _
  rw [Fold.mapM_eq_some_map fun th hth => n2b1StageE_eq hlog hstage hblocks hth]
  rfl

/-- The threads of a launch work on different elements, and those of half the elements on all of
them. -/
lemma nttStage_spec (hgrid : 2 ^ (logN - 1) ≤ blocks * 128) (b : DeviceBuffer QuadraticExtension)
    (hlen : 2 ^ logN ≤ b.len) :
    ∃ b', nttStage logN blocks blocks stage b = some b' ∧ b'.len = b.len ∧
      Butterfly.IsStage (primitiveRootOfUnity logN) reverseBits stage (2 ^ (logN - 1 - stage))
        b.cell b'.cell := by
  set m := 2 ^ (logN - 1 - stage) with hm
  have hmpos : 0 < m := Nat.two_pow_pos _
  have hhalf : 2 ^ stage * m = 2 ^ (logN - 1) := by
    rw [hm, ← pow_add]
    congr 1
    omega
  have hwhole : 2 ^ logN = 2 * 2 ^ (logN - 1) := by
    rw [← pow_succ']
    congr 1
    omega
  have hmem : ∀ p ∈ exchangeStores (stageExchanges logN blocks stage), ∃ tid < 2 ^ (logN - 1),
      p.1 = exchangeOf logN stage m tid := by
    intro p hp
    obtain ⟨tid, -, hlt, he⟩ := mem_stageExchanges.mp (mem_exchangeStores.mp hp)
    exact ⟨tid, hlt, he⟩
  have hposition : ∀ p ∈ exchangeStores (stageExchanges logN blocks stage),
      ∃ tid < 2 ^ (logN - 1), p.1 = exchangeOf logN stage m tid ∧
        (Exchange.address p).toNat = (2 * (tid / m) + p.2.toNat) * m + tid % m := by
    intro p hp
    obtain ⟨tid, hlt, he⟩ := hmem p hp
    refine ⟨tid, hlt, he, ?_⟩
    obtain ⟨e, side⟩ := p
    obtain rfl : e = _ := he
    rw [address_exchangeOf, Int.toNat_natCast]
  have hnat : ∀ p ∈ exchangeStores (stageExchanges logN blocks stage),
      Exchange.address p = (Exchange.address p).toNat := by
    intro p hp
    obtain ⟨tid, -, he⟩ := hmem p hp
    obtain ⟨e, side⟩ := p
    obtain rfl : e = _ := he
    rw [address_exchangeOf, Int.toNat_natCast]
  have hbound : ∀ p ∈ exchangeStores (stageExchanges logN blocks stage),
      (Exchange.address p).toNat < b.len := by
    intro p hp
    obtain ⟨tid, hlt, -, hadr⟩ := hposition p hp
    have hblock : tid / m < 2 ^ stage := Nat.div_lt_of_lt_mul (by rwa [mul_comm, hhalf])
    have hrest : tid % m < m := Nat.mod_lt _ hmpos
    rw [hadr]
    calc (2 * (tid / m) + p.2.toNat) * m + tid % m
        < (2 * (tid / m) + 1) * m + m := by
          have := Nat.mul_le_mul_right m (Nat.add_le_add_left p.2.toNat_le (2 * (tid / m)))
          omega
      _ = 2 * ((tid / m + 1) * m) := by ring
      _ ≤ 2 * (2 ^ stage * m) := Nat.mul_le_mul_left _ (Nat.mul_le_mul_right m hblock)
      _ ≤ b.len := by rwa [hhalf, ← hwhole]
  have hinj : ∀ p ∈ exchangeStores (stageExchanges logN blocks stage),
      ∀ p' ∈ exchangeStores (stageExchanges logN blocks stage),
        (Exchange.address p').toNat = (Exchange.address p).toNat → p' = p := by
    intro p hp p' hp' heq
    obtain ⟨tid, -, he, hadr⟩ := hposition p hp
    obtain ⟨tid', -, he', hadr'⟩ := hposition p' hp'
    rw [hadr, hadr'] at heq
    have hrest : tid % m < m := Nat.mod_lt _ hmpos
    have hrest' : tid' % m < m := Nat.mod_lt _ hmpos
    have hblock : 2 * (tid' / m) + p'.2.toNat = 2 * (tid / m) + p.2.toNat := by
      have h := congrArg (· / m) heq
      simpa only [add_comm _ (tid % m), add_comm _ (tid' % m), Nat.add_mul_div_right _ _ hmpos,
        Nat.div_eq_of_lt hrest, Nat.div_eq_of_lt hrest', zero_add] using h
    have hmod : tid' % m = tid % m := by
      rw [hblock] at heq
      exact Nat.add_left_cancel heq
    have hside := p.2.toNat_le
    have hside' := p'.2.toNat_le
    have hdiv : tid' / m = tid / m := by omega
    have htid : tid' = tid := by
      rw [← Nat.div_add_mod tid' m, ← Nat.div_add_mod tid m, hdiv, hmod]
    have hbit : p'.2.toNat = p.2.toNat := by omega
    refine Prod.ext ?_ ?_
    · rw [he, he', htid]
    · revert hbit
      cases p'.2 <;> cases p.2 <;> simp
  obtain ⟨b', hb', hblen, hwritten, -⟩ := b.store_spec Exchange.address (Exchange.result b.cell)
    (fun p => (Exchange.address p).toNat) hnat hbound hinj
  refine ⟨b', ?_, hblen, ?_⟩
  · rw [nttStage_eq hlog hstage hpos hblocks, hb']
    rfl
  · intro r hr t ht
    have htid : r * m + t < 2 ^ (logN - 1) := by
      calc r * m + t < r * m + m := by omega
        _ = (r + 1) * m := by ring
        _ ≤ 2 ^ stage * m := Nat.mul_le_mul_right m hr
        _ = 2 ^ (logN - 1) := hhalf
    have hdiv : (r * m + t) / m = r := by
      rw [add_comm, Nat.add_mul_div_right _ _ hmpos, Nat.div_eq_of_lt ht, zero_add]
    have hmod : (r * m + t) % m = t := by
      rw [add_comm, Nat.add_mul_mod_self_right, Nat.mod_eq_of_lt ht]
    have hactive : exchangeOf logN stage m (r * m + t) ∈ stageExchanges logN blocks stage :=
      mem_stageExchanges.mpr ⟨_, by omega, htid, rfl⟩
    have hsum := hwritten (_, false) (mem_exchangeStores.mpr hactive)
    have hdifference := hwritten (_, true) (mem_exchangeStores.mpr hactive)
    simp only [Exchange.address, Exchange.result, Int.toNat_natCast, hdiv, hmod]
      at hsum hdifference
    constructor
    · rw [hsum, mul_comm (b.cell _)]
    · rw [hdifference, mul_comm (b.cell _)]

/-- A cell at which no thread stores stays. -/
lemma nttStage_kept {b b' : DeviceBuffer QuadraticExtension} {i : ℕ}
    (h : nttStage logN blocks blocks stage b = some b')
    (hi : ∀ tid < blocks * 128, ∀ side,
      Exchange.address (exchangeOf logN stage (2 ^ (logN - 1 - stage)) tid, side) ≠ i) :
    b'.cell i = b.cell i := by
  rw [nttStage_eq hlog hstage hpos hblocks, DeviceBuffer.store] at h
  split_ifs at h with hall
  · cases h
    refine Scatter.scatter_of_forall_ne b.cell ?_
    rintro ⟨e, side⟩ hp heq
    obtain ⟨tid, hgrid, -, rfl⟩ := mem_stageExchanges.mp (mem_exchangeStores.mp hp)
    refine hi tid hgrid side ?_
    rw [← heq, Int.toNat_of_nonneg (hall _ hp).1]
  · cases h

end Stage

/-! ### All stages -/

open Finset

/-- What the transform is for: the values of the polynomial at the powers of the root, each at its
index with the bits reversed. -/
def Transforms (logN : ℕ) : Prop :=
  ∀ b : DeviceBuffer QuadraticExtension, 2 ^ logN ≤ b.len →
    ∃ b', nttExtensionInplace logN 1 b = some b' ∧ ∀ i < 2 ^ logN,
      b'.cell i =
        ∑ k ∈ range (2 ^ logN), b.cell k * (primitiveRootOfUnity logN ^ reverseBits i logN) ^ k

/-- The launches of a transform that fits in 31 bits have threads for half the elements. -/
lemma nttExtensionInplace_blocks {logN : ℕ} (h : 1 ≤ logN) (h' : logN ≤ 31) :
    ∃ blocks, 0 < blocks ∧ blocks ≤ 2 ^ 23 ∧ 2 ^ (logN - 1) ≤ blocks * 128 ∧
      ∀ b, nttExtensionInplace logN 1 b =
        (List.range logN).foldlM (fun b stage => nttStage logN blocks blocks stage b) b := by
  have hword : 2 ^ logN ≤ 2 ^ 31 := Nat.pow_le_pow_right (by decide) h'
  have hhalf : 2 ^ logN = 2 * 2 ^ (logN - 1) := by
    rw [← pow_succ']
    congr 1
    omega
  have hpos : 0 < 2 ^ (logN - 1) := Nat.two_pow_pos _
  have hn : u32 (1 <<< (logN % 32)) = 2 ^ logN := by
    rw [Nat.mod_eq_of_lt (by omega), Nat.one_shiftLeft, u32_of_lt (by omega)]
  have hblocks : u32 (2 ^ logN + 2 * 128 - 1) / (2 * 128) = (2 ^ logN + 255) / 256 := by
    rw [u32_of_lt (by omega)]
    rfl
  refine ⟨(2 ^ logN + 255) / 256, by omega, by omega, by omega, fun b => ?_⟩
  have hu : u32 ((2 ^ logN + 255) / 256) = (2 ^ logN + 255) / 256 := u32_of_lt (by omega)
  simp only [nttExtensionInplace, hn, hblocks, mul_one, hu]

/-- After some stages the blocks hold the residues of the polynomial. -/
lemma foldlM_nttStage {logN blocks : ℕ} (h : 1 ≤ logN) (h' : logN ≤ 32) (hpos : 0 < blocks)
    (hblocks : blocks ≤ 2 ^ 23) (hgrid : 2 ^ (logN - 1) ≤ blocks * 128)
    (b : DeviceBuffer QuadraticExtension) (hlen : 2 ^ logN ≤ b.len) {s : ℕ} (hs : s ≤ logN) :
    ∃ b', (List.range s).foldlM (fun b stage => nttStage logN blocks blocks stage b) b = some b' ∧
      b'.len = b.len ∧
      Butterfly.Reduced (primitiveRootOfUnity logN) reverseBits s (2 ^ (logN - s)) b.cell b'.cell := by
  induction s with
  | zero => exact ⟨b, rfl, rfl, Butterfly.reduced_zero numbering_reverseBits _ _⟩
  | succ s ih =>
    obtain ⟨b₁, hb₁, hlen₁, hinv⟩ := ih (by omega)
    obtain ⟨b₂, hb₂, hlen₂, hstage⟩ :=
      nttStage_spec h' (by omega : s < logN) hpos hblocks hgrid b₁ (by omega)
    have hdouble : 2 ^ (logN - s) = 2 * 2 ^ (logN - 1 - s) := by
      rw [← pow_succ']
      congr 1
      omega
    have hhalf : 2 ^ s * 2 ^ (logN - 1 - s) = 2 ^ (logN - 1) := by
      rw [← pow_add]
      congr 1
      omega
    have hnext : logN - (s + 1) = logN - 1 - s := by omega
    rw [hdouble] at hinv
    refine ⟨b₂, ?_, hlen₂.trans hlen₁, ?_⟩
    · rw [List.range_succ, List.foldlM_append, hb₁]
      change (nttStage logN blocks blocks s b₁).bind pure = _
      rw [hb₂]
      rfl
    · rw [hnext]
      exact hinv.step numbering_reverseBits
        (primitiveRootOfUnity_pow_half h (by omega)) hhalf hstage

lemma transforms_of_le {logN : ℕ} (h : 1 ≤ logN) (h' : logN ≤ 31) : Transforms logN := by
  intro b hlen
  obtain ⟨blocks, hpos, hblocks, hgrid, hrun⟩ := nttExtensionInplace_blocks h h'
  obtain ⟨b', hb', -, hinv⟩ :=
    foldlM_nttStage h (by omega) hpos hblocks hgrid b hlen (le_refl logN)
  rw [Nat.sub_self, pow_zero] at hinv
  refine ⟨b', (hrun b).trans hb', fun i hi => ?_⟩
  rw [hinv.eval hi]
  exact sum_congr rfl fun k _ => by rw [pow_mul]

lemma nttExtensionInplace_len {logN numNtts : ℕ} {b b' : DeviceBuffer QuadraticExtension}
    (h : nttExtensionInplace logN numNtts b = some b') : b'.len = b.len := by
  refine Fold.foldlM_some_of_preserved (fun b' => b'.len = b.len) ?_ h rfl
  intro b₁ stage b₂ hstage hlen
  obtain ⟨ths, -, hstage⟩ := Option.bind_eq_some_iff.mp hstage
  obtain ⟨exchanges, -, hstage⟩ := Option.bind_eq_some_iff.mp hstage
  exact (DeviceBuffer.store_len hstage).trans hlen

/-- With a size of 32 bits the shift on the host is by zero, and the one block of a launch stays
away from most elements. -/
lemma nttExtensionInplace_kept {b b' : DeviceBuffer QuadraticExtension}
    (h : nttExtensionInplace 32 1 b = some b') : b'.cell (3 * 2 ^ 30) = b.cell (3 * 2 ^ 30) := by
  have hrun : ∀ s ≤ 32, ∀ b', (List.range s).foldlM (fun b stage => nttStage 32 1 1 stage b) b =
      some b' → b'.cell (3 * 2 ^ 30) = b.cell (3 * 2 ^ 30) := by
    intro s
    induction s with
    | zero =>
      rintro - b' ⟨⟩
      rfl
    | succ s ih =>
      intro hs b' hb'
      rw [List.range_succ, List.foldlM_append] at hb'
      obtain ⟨b₁, hb₁, hstage⟩ := Option.bind_eq_some_iff.mp hb'
      rw [List.foldlM_cons] at hstage
      obtain ⟨b₂, hb₂, hlast⟩ := Option.bind_eq_some_iff.mp hstage
      cases hlast
      rw [← ih (by omega) b₁ hb₁]
      refine nttStage_kept (le_refl 32) (by omega) zero_lt_one (by decide) hb₂ ?_
      intro tid htid side
      set m := 2 ^ (32 - 1 - s)
      have hpow : m ≤ 2 ^ 31 := Nat.pow_le_pow_right (by decide) (by omega)
      have hside : side.toNat * m ≤ m := by
        calc side.toNat * m ≤ 1 * m := Nat.mul_le_mul_right m side.toNat_le
          _ = m := one_mul m
      have hsmall : (2 * (tid / m) + side.toNat) * m + tid % m ≤ 2 ^ 31 + 2 * tid := by
        have hblock : tid / m * m + tid % m = tid := Nat.div_add_mod' tid m
        have hexpand : (2 * (tid / m) + side.toNat) * m = 2 * (tid / m * m) + side.toNat * m := by
          ring
        omega
      rw [address_exchangeOf]
      exact_mod_cast (by omega : (2 * (tid / m) + side.toNat) * m + tid % m ≠ 3 * 2 ^ 30)
  exact hrun 32 (le_refl 32) b' h

lemma not_transforms_32 : ¬ Transforms 32 := by
  intro h
  let b : DeviceBuffer QuadraticExtension := ⟨2 ^ 32, fun k => if k = 0 then 1 else 0⟩
  obtain ⟨b', hb', hval⟩ := h b (le_refl _)
  have hzero : b'.cell (3 * 2 ^ 30) = 0 := nttExtensionInplace_kept hb'
  -- the polynomial is the constant one
  have hone : b'.cell (3 * 2 ^ 30) = 1 := by
    rw [hval _ (by decide), sum_eq_single_of_mem 0 (mem_range.mpr (by decide))]
    · rw [pow_zero, mul_one]
      rfl
    · intro k _ hk
      have hk' : b.cell k = 0 := if_neg hk
      rw [hk', zero_mul]
  exact zero_ne_one (hzero.symm.trans hone)

/-- `ntt_extension_inplace` is the transform for every size up to 31 bits. At 32 bits the host shifts
a `u32` by its width. -/
theorem transforms_iff {logN : ℕ} (h : 1 ≤ logN) (h' : logN ≤ 32) : Transforms logN ↔ logN ≤ 31 := by
  constructor
  · intro htransforms
    by_contra hlt
    obtain rfl : logN = 32 := by omega
    exact not_transforms_32 htransforms
  · exact transforms_of_le h

theorem transforms_iff_3 : Transforms 3 ∧ ¬ Transforms 32 := by
  constructor
  · exact (transforms_iff (by decide) (by decide)).mpr (by decide)
  · exact fun h => absurd ((transforms_iff (by decide) (by decide)).mp h) (by decide)

theorem not_transforms : ¬ ∀ logN, 1 ≤ logN → logN ≤ 32 → Transforms logN :=
  fun h => not_transforms_32 (h 32 (by decide) (le_refl 32))

end MegaZK
