import MegaZK.Assembly.Basic
import MegaZK.Lib.Placement

/-! # Scratch overlay

One block of device memory holds the captured buffers of the witness generation, or the delayed
Merkle trees and the FRI rounds. `ScratchSizer` counts the bytes, `ScratchCursor` hands out the
views; both round every start up to 256 bytes. -/

namespace MegaZK

open Placement

/-! ### Machine arithmetic -/

/-- `checked_mul` of `usize`. -/
def checkedMul (x y : ℕ) : Option ℕ := if x * y < 2 ^ 64 then some (x * y) else none

/-- `checked_add` of `usize`. -/
def checkedAdd (x y : ℕ) : Option ℕ := if x + y < 2 ^ 64 then some (x + y) else none

/-- `x << k` of `usize`: the shift uses the low bits of its amount. -/
def shlUsize (x k : ℕ) : ℕ := x <<< (k % 64) % 2 ^ 64

/-- `x >> k` of `usize`. -/
def shrUsize (x k : ℕ) : ℕ := x >>> (k % 64)

def scratchAlign : ℕ := 256

/-- `align_up`: `(bytes + align - 1) & !(align - 1)`. The sum wraps. -/
def alignUp (bytes align : ℕ) : ℕ := (bytes + align - 1) % 2 ^ 64 &&& (2 ^ 64 - 1 - (align - 1))

/-! ### Sizer and cursor -/

/-- The element types of the views. -/
inductive Elem
  | u32
  | goldilocks
  | usize
  deriving DecidableEq, Repr

/-- `mem::size_of`. -/
def Elem.size : Elem → ℕ
  | .u32 => 4
  | .goldilocks => 8
  | .usize => 8

/-- What is counted or taken: a number of elements of a type. -/
structure Request where
  elem : Elem
  count : ℕ
  deriving DecidableEq, Repr

def Request.bytes (r : Request) : ℕ := r.count * r.elem.size

/-- `ScratchSizer`. The requests counted so far are kept for comparison with the cursor. -/
structure ScratchSizer where
  offset : ℕ
  counted : List Request

namespace ScratchSizer

def new : ScratchSizer := ⟨0, []⟩

def add (elem : Elem) (count : ℕ) : StateT ScratchSizer Option Unit := fun s => do
  let size ← checkedMul count elem.size
  let offset ← checkedAdd (alignUp s.offset scratchAlign) size
  return ((), ⟨offset, s.counted ++ [⟨elem, count⟩]⟩)

def bytes (s : ScratchSizer) : ℕ := alignUp s.offset scratchAlign

end ScratchSizer

/-- A block of device memory. `cudaMalloc` aligns its address to at least 256 bytes; the null
block of the setup has length zero. -/
structure DeviceBlock where
  base : ℕ
  len : ℕ
  aligned : scratchAlign ∣ base

/-- `DeviceView`. -/
structure DeviceView where
  elem : Elem
  ptr : ℕ
  len : ℕ
  deriving DecidableEq, Repr

def DeviceView.request (v : DeviceView) : Request := ⟨v.elem, v.len⟩

def DeviceView.stop (v : DeviceView) : ℕ := v.ptr + v.request.bytes

/-- `ScratchCursor`. The views handed out so far are kept. -/
structure ScratchCursor where
  base : ℕ
  len : ℕ
  offset : ℕ
  taken : List DeviceView

namespace ScratchCursor

def new (scratch : DeviceBlock) : ScratchCursor := ⟨scratch.base, scratch.len, 0, []⟩

def take (elem : Elem) (count : ℕ) : StateT ScratchCursor Option DeviceView := fun c => do
  let size ← checkedMul count elem.size
  let start := alignUp c.offset scratchAlign
  let stop ← checkedAdd start size
  if stop ≤ c.len then
    let view : DeviceView := ⟨elem, c.base + start, count⟩
    return (view, ⟨c.base, c.len, stop, c.taken ++ [view]⟩)
  else none

end ScratchCursor

/-! ### Counting -/

/-- `merkle_tree_len`. -/
def merkleTreeLen (degree rateBits : ℕ) : ℕ := shlUsize (8 * degree % 2 ^ 64) rateBits

/-- The loop of `fri_commit_part_lens`. -/
def commitPartLensFrom : ℕ → ℕ → List ℕ → List FriCommitPartLens
  | _, _, [] => []
  | digestsLen, leavesLen, arityBits :: rest =>
    let digestsLen := shrUsize digestsLen arityBits
    let foldedLen := shrUsize leavesLen arityBits
    ⟨digestsLen, leavesLen, foldedLen⟩ :: commitPartLensFrom digestsLen foldedLen rest

/-- `fri_commit_part_lens`. -/
def commitPartLens (degree extensionDegree rateBits : ℕ) (reductionArityBits : List ℕ) :
    List FriCommitPartLens :=
  commitPartLensFrom (shlUsize (8 * degree % 2 ^ 64) rateBits)
    (shlUsize (degree * extensionDegree % 2 ^ 64) rateBits) reductionArityBits

/-- The loop of `add_delayed_commit_and_fri` over the rounds. -/
def addCommitParts : List FriCommitPartLens → StateT ScratchSizer Option Unit
  | [] => pure ()
  | part :: parts => do
    ScratchSizer.add .goldilocks part.digestsLen
    ScratchSizer.add .goldilocks part.leavesLen
    ScratchSizer.add .goldilocks part.leavesLen
    ScratchSizer.add .goldilocks part.foldedLen
    addCommitParts parts

/-- `add_delayed_commit_and_fri`. -/
def addDelayedCommitAndFri (degree extensionDegree rateBits : ℕ) (reductionArityBits : List ℕ) :
    StateT ScratchSizer Option Unit := do
  let treeLen := merkleTreeLen degree rateBits
  ScratchSizer.add .goldilocks treeLen
  ScratchSizer.add .goldilocks treeLen
  ScratchSizer.add .goldilocks treeLen
  addCommitParts (commitPartLens degree extensionDegree rateBits reductionArityBits)

/-- `post_witgen_bytes`, with the sizer it ends with. -/
def postWitgenSizer (degree extensionDegree rateBits : ℕ) (reductionArityBits : List ℕ) :
    Option ScratchSizer := do
  let ((), sizer) ← addDelayedCommitAndFri degree extensionDegree rateBits reductionArityBits
    ScratchSizer.new
  return sizer

def postWitgenBytes (degree extensionDegree rateBits : ℕ) (reductionArityBits : List ℕ) :
    Option ℕ :=
  (postWitgenSizer degree extensionDegree rateBits reductionArityBits).map ScratchSizer.bytes

/-- `witgen_captured_bytes`, with the sizer it ends with. -/
def witgenCapturedSizer (readLen witnessLen paramsLen : ℕ) : Option ScratchSizer := do
  let ((), sizer) ← (do
    ScratchSizer.add .u32 readLen
    ScratchSizer.add .goldilocks witnessLen
    ScratchSizer.add .usize paramsLen : StateT ScratchSizer Option Unit) ScratchSizer.new
  return sizer

def witgenCapturedBytes (readLen witnessLen paramsLen : ℕ) : Option ℕ :=
  (witgenCapturedSizer readLen witnessLen paramsLen).map ScratchSizer.bytes

/-! ### Binding -/

/-- `MerkleCapBuffers`; `owned` is `device_owner.is_some()`. -/
structure MerkleCapBuffers where
  treeDevice : DeviceView
  owned : Bool

/-- `MerkleCapBuffers::bind_from_scratch`. -/
def MerkleCapBuffers.bindFromScratch (b : MerkleCapBuffers) (treeLen : ℕ) :
    StateT ScratchCursor Option MerkleCapBuffers :=
  if b.owned then failure
  else do
    let treeDevice ← ScratchCursor.take .goldilocks treeLen
    return { b with treeDevice }

/-- `CommitmentBuffers`. -/
structure CommitmentBuffers where
  treeLen : ℕ
  constants : MerkleCapBuffers
  wires : MerkleCapBuffers
  partialProducts : MerkleCapBuffers
  quotients : MerkleCapBuffers

namespace CommitmentBuffers

/-- `CommitmentBuffers::new`, where `tree` is the tree of the constants: the setup passes
`8 * degree << rate_bits`. -/
def new (degree rateBits : ℕ) (tree : DeviceView) : CommitmentBuffers :=
  let unallocated : MerkleCapBuffers := ⟨⟨.goldilocks, 0, 0⟩, false⟩
  ⟨shlUsize (8 * degree % 2 ^ 64) rateBits, ⟨tree, true⟩, unallocated, unallocated, unallocated⟩

/-- `bind_delayed_from_scratch`. -/
def bindDelayedFromScratch (b : CommitmentBuffers) :
    StateT ScratchCursor Option CommitmentBuffers := do
  let wires ← b.wires.bindFromScratch b.treeLen
  let partialProducts ← b.partialProducts.bindFromScratch b.treeLen
  let quotients ← b.quotients.bindFromScratch b.treeLen
  return { b with wires, partialProducts, quotients }

/-- The delayed trees. -/
def views (b : CommitmentBuffers) : List DeviceView :=
  [b.wires.treeDevice, b.partialProducts.treeDevice, b.quotients.treeDevice]

end CommitmentBuffers

/-- `FriCommitBuffers`. -/
structure FriCommitBuffers where
  treeDigests : List DeviceView
  treeLeaves : List DeviceView
  transposedTreeLeaves : List DeviceView
  foldedCoefficients : List DeviceView

namespace FriCommitBuffers

/-- The loop of `FriCommitBuffers::bind_from_scratch`. -/
def bindParts : List FriCommitPartLens → StateT ScratchCursor Option FriCommitBuffers
  | [] => return ⟨[], [], [], []⟩
  | part :: parts => do
    let digests ← ScratchCursor.take .goldilocks part.digestsLen
    let leaves ← ScratchCursor.take .goldilocks part.leavesLen
    let transposed ← ScratchCursor.take .goldilocks part.leavesLen
    let folded ← ScratchCursor.take .goldilocks part.foldedLen
    let rest ← bindParts parts
    return ⟨digests :: rest.treeDigests, leaves :: rest.treeLeaves,
      transposed :: rest.transposedTreeLeaves, folded :: rest.foldedCoefficients⟩

/-- `FriCommitBuffers::bind_from_scratch`. -/
def bindFromScratch (degree extensionDegree rateBits : ℕ) (reductionArityBits : List ℕ) :
    StateT ScratchCursor Option FriCommitBuffers :=
  bindParts (commitPartLens degree extensionDegree rateBits reductionArityBits)

/-- The views of the rounds, round by round. -/
def views (b : FriCommitBuffers) : List DeviceView :=
  ((b.treeDigests.zip b.treeLeaves).zip (b.transposedTreeLeaves.zip b.foldedCoefficients)).flatMap
    fun round => [round.1.1, round.1.2, round.2.1, round.2.2]

end FriCommitBuffers

/-- `DeviceAllocation::<u8>::alloc`: a block of the requested length, or an error. -/
structure Allocator where
  alloc : ℕ → Option DeviceBlock
  len_alloc : ∀ n block, alloc n = some block → block.len = n

/-- The parts of `GpuWorkspace` that are bound after the witness generation. -/
structure GpuWorkspace where
  commitments : CommitmentBuffers
  scratch : DeviceBlock
  friScratch : DeviceBlock

/-- The block of `bind_post_witgen_views`: an extra one beside a live graph, the one of the
witness generation when it is large enough, or a new one in its place. -/
def GpuWorkspace.postScratch (w : GpuWorkspace) (device : Allocator) (post : ℕ)
    (keepSoa overlaySoa : Bool) : Option DeviceBlock :=
  if keepSoa then device.alloc post
  else if overlaySoa then
    if post ≤ w.scratch.len then some w.scratch else none
  else device.alloc post

/-- The views of `bind_post_witgen_views`, with the cursor it ends with. -/
def CommitmentBuffers.bindPostWitgenViews (b : CommitmentBuffers)
    (degree extensionDegree rateBits : ℕ) (reductionArityBits : List ℕ) :
    StateT ScratchCursor Option (CommitmentBuffers × FriCommitBuffers) := do
  let commitments ← b.bindDelayedFromScratch
  let fri ← FriCommitBuffers.bindFromScratch degree extensionDegree rateBits reductionArityBits
  return (commitments, fri)

/-- `ensure_scratch_bytes`. -/
def ensureScratchBytes (scratch : DeviceBlock) (device : Allocator) (needed : ℕ) :
    Option DeviceBlock :=
  if needed ≤ scratch.len then some scratch else device.alloc needed

/-- The captured buffers of `WitnessBuffers`. -/
structure CapturedViews where
  readMap : DeviceView
  witness : DeviceView
  params : DeviceView

/-- The views that `WitnessService::build` takes. -/
def bindCapturedViews (readLen witnessLen paramsLen : ℕ) :
    StateT ScratchCursor Option CapturedViews := do
  let readMap ← ScratchCursor.take .u32 readLen
  let witness ← ScratchCursor.take .goldilocks witnessLen
  let params ← ScratchCursor.take .usize paramsLen
  return ⟨readMap, witness, params⟩

/-- Views as the requests ask for, aligned, apart from each other and inside their block. -/
structure Bound (block : DeviceBlock) (requests : List Request) (views : List DeviceView) :
    Prop where
  request_eq : views.map DeviceView.request = requests
  aligned : ∀ v ∈ views, scratchAlign ∣ v.ptr
  disjoint : views.Pairwise fun v w => v.stop ≤ w.ptr ∨ w.stop ≤ v.ptr
  inside : ∀ v ∈ views, block.base ≤ v.ptr ∧ v.stop ≤ block.base + block.len

/-! ### One request -/

/-- Clearing the low byte. -/
lemma and_mask {y : ℕ} (hy : y < 2 ^ 64) : y &&& (2 ^ 64 - 1 - (256 - 1)) = y / 256 * 256 := by
  have hmask : 2 ^ 64 - 1 - (256 - 1) = (2 ^ 56 - 1) <<< 8 := by decide
  have hdiv : y / 256 * 256 = y >>> 8 <<< 8 := by
    rw [Nat.shiftRight_eq_div_pow, Nat.shiftLeft_eq]
  rw [hmask, hdiv]
  apply Nat.eq_of_testBit_eq
  intro i
  rw [Nat.testBit_and, Nat.testBit_shiftLeft, Nat.testBit_shiftLeft, Nat.testBit_shiftRight,
    Nat.testBit_two_pow_sub_one]
  by_cases hlow : 8 ≤ i
  · rw [Nat.add_sub_cancel' hlow]
    by_cases hhigh : i < 64
    · have : i - 8 < 56 := by omega
      simp [hlow, this]
    · have hpow : 2 ^ 64 ≤ 2 ^ i := Nat.pow_le_pow_right (by norm_num) (by omega)
      simp [Nat.testBit_lt_two_pow (hy.trans_le hpow)]
  · simp [hlow]

lemma alignUp_eq {x : ℕ} (hx : x ≤ 2 ^ 64 - 256) : alignUp x scratchAlign = roundUp 256 x := by
  rw [alignUp, scratchAlign, Nat.mod_eq_of_lt (by omega), and_mask (by omega), roundUp]

/-- An aligned offset is a multiple of the alignment below the address space. -/
lemma alignUp_le (x : ℕ) : alignUp x scratchAlign ≤ 2 ^ 64 - 256 := Nat.and_le_right

namespace ScratchSizer

/-- Counting one request. -/
def count (s : ScratchSizer) (r : Request) : Option ScratchSizer :=
  (add r.elem r.count s).map Prod.snd

lemma count_eq {s : ScratchSizer} {r : Request} (hs : s.offset ≤ 2 ^ 64 - 256)
    (hr : roundUp 256 s.offset + r.bytes < 2 ^ 64) :
    s.count r = some ⟨roundUp 256 s.offset + r.bytes, s.counted ++ [r]⟩ := by
  have hmul : r.count * r.elem.size < 2 ^ 64 := by
    have : r.bytes = r.count * r.elem.size := rfl
    omega
  simp only [count, add, checkedMul, if_pos hmul, checkedAdd, alignUp_eq hs, Option.bind_eq_bind,
    Option.bind_some]
  have hadd : roundUp 256 s.offset + r.count * r.elem.size < 2 ^ 64 := hr
  rw [if_pos hadd]
  rfl

/-- All requests are counted when their aligned end is an address. -/
lemma foldlM_count {rs : List Request} {s : ScratchSizer}
    (h : finish 256 (rs.map Request.bytes) s.offset ≤ 2 ^ 64 - 256) :
    rs.foldlM count s = some ⟨finish 256 (rs.map Request.bytes) s.offset, s.counted ++ rs⟩ := by
  induction rs generalizing s with
  | nil => simp [finish]
  | cons r rs ih =>
    rw [List.map_cons, finish] at h ⊢
    have hend := le_finish (a := 256) (by decide) (rs.map Request.bytes)
      (roundUp 256 s.offset + r.bytes)
    have hstart := le_roundUp (a := 256) (by decide) s.offset
    rw [List.foldlM_cons, count_eq (by omega) (by omega), Option.bind_eq_bind, Option.bind_some,
      ih h]
    simp

end ScratchSizer

namespace ScratchCursor

/-- Taking one request. -/
def step (c : ScratchCursor) (r : Request) : Option ScratchCursor :=
  (take r.elem r.count c).map Prod.snd

/-- The views handed out so far lie below the offset. -/
structure Inv (block : DeviceBlock) (c : ScratchCursor) : Prop where
  base_eq : c.base = block.base
  len_eq : c.len = block.len
  offset_le : c.offset ≤ c.len
  aligned : ∀ v ∈ c.taken, scratchAlign ∣ v.ptr
  disjoint : c.taken.Pairwise fun v w => v.stop ≤ w.ptr ∨ w.stop ≤ v.ptr
  inside : ∀ v ∈ c.taken, block.base ≤ v.ptr ∧ v.stop ≤ block.base + c.offset

variable {block : DeviceBlock} {c c' : ScratchCursor} {r : Request}

lemma inv_new (block : DeviceBlock) : Inv block (new block) where
  base_eq := rfl
  len_eq := rfl
  offset_le := Nat.zero_le _
  aligned := by simp [new]
  disjoint := List.Pairwise.nil
  inside := by simp [new]

/-- The cursor after a request. -/
def after (c : ScratchCursor) (r : Request) : ScratchCursor :=
  ⟨c.base, c.len, roundUp 256 c.offset + r.bytes,
    c.taken ++ [⟨r.elem, c.base + roundUp 256 c.offset, r.count⟩]⟩

lemma step_eq (hc : c.offset ≤ 2 ^ 64 - 256) (hfits : roundUp 256 c.offset + r.bytes < 2 ^ 64)
    (hlen : roundUp 256 c.offset + r.bytes ≤ c.len) : c.step r = some (c.after r) := by
  have hbytes : r.bytes = r.count * r.elem.size := rfl
  rw [hbytes] at hfits hlen
  have hmul : r.count * r.elem.size < 2 ^ 64 := by omega
  simp only [step, take, checkedMul, if_pos hmul, checkedAdd, alignUp_eq hc, if_pos hfits,
    if_pos hlen, Option.bind_eq_bind, Option.bind_some]
  rfl

/-- A successful request ends inside the block; its start did not wrap. -/
lemma step_eq_some (hc : c.offset ≤ 2 ^ 64 - 256) (h : c.step r = some c') :
    c' = c.after r ∧ c'.offset ≤ c'.len := by
  simp only [step, take, checkedMul, checkedAdd, alignUp_eq hc] at h
  split_ifs at h with hmul
  · simp only [Option.bind_eq_bind, Option.bind_some] at h
    split_ifs at h with hadd
    · simp only [Option.bind_some] at h
      split_ifs at h with hlen
      · simp only [Option.pure_def, Option.map_some, Option.some.injEq] at h
        subst h
        exact ⟨rfl, hlen⟩
      · cases h
    · cases h
  · cases h

/-- A new view starts at or after the end of all earlier ones. -/
lemma Inv.after (hinv : Inv block c) (hlen : roundUp 256 c.offset + r.bytes ≤ c.len) :
    Inv block (c.after r) := by
  have hstart := le_roundUp (a := 256) (by decide) c.offset
  have hbase := hinv.base_eq
  refine ⟨hinv.base_eq, hinv.len_eq, hlen, ?_, ?_, ?_⟩
  · intro v hv
    rcases List.mem_append.mp hv with hv | hv
    · exact hinv.aligned v hv
    · obtain rfl := List.mem_singleton.mp hv
      exact Nat.dvd_add (hbase ▸ block.aligned) (dvd_roundUp _)
  · refine List.pairwise_append.mpr ⟨hinv.disjoint, List.pairwise_singleton _ _, ?_⟩
    intro v hv w hw
    obtain rfl := List.mem_singleton.mp hw
    have := (hinv.inside v hv).2
    left
    dsimp only
    omega
  · intro v hv
    simp only [ScratchCursor.after] at hv ⊢
    rcases List.mem_append.mp hv with hv | hv
    · have := hinv.inside v hv
      omega
    · obtain rfl := List.mem_singleton.mp hv
      have hstop : (⟨r.elem, c.base + roundUp 256 c.offset, r.count⟩ : DeviceView).stop =
          c.base + roundUp 256 c.offset + r.bytes := rfl
      rw [hstop]
      dsimp only
      omega

/-- All requests are taken when they end inside the block. -/
lemma foldlM_step {rs : List Request} (hinv : Inv block c)
    (hfits : finish 256 (rs.map Request.bytes) c.offset ≤ 2 ^ 64 - 256)
    (hlen : finish 256 (rs.map Request.bytes) c.offset ≤ c.len) :
    ∃ c', rs.foldlM step c = some c' ∧ Inv block c' ∧
      c'.taken.map DeviceView.request = c.taken.map DeviceView.request ++ rs := by
  induction rs generalizing c with
  | nil => exact ⟨c, rfl, hinv, by simp⟩
  | cons r rs ih =>
    rw [List.map_cons, finish] at hfits hlen
    have hend := le_finish (a := 256) (by decide) (rs.map Request.bytes)
      (roundUp 256 c.offset + r.bytes)
    have hstart := le_roundUp (a := 256) (by decide) c.offset
    obtain ⟨c', hrun, hinv', htaken⟩ := ih (hinv.after (r := r) (by omega)) hfits hlen
    refine ⟨c', ?_, hinv', ?_⟩
    · rw [List.foldlM_cons, step_eq (by omega) (by omega) (by omega), Option.bind_eq_bind,
        Option.bind_some, hrun]
    · rw [htaken]
      simp [ScratchCursor.after, DeviceView.request]

/-- Requests that were taken end inside a block that ends below the last aligned address. -/
lemma finish_le_of_foldlM_step {rs : List Request} (hlen : c.len ≤ 2 ^ 64 - 256)
    (hc : c.offset ≤ c.len) (h : rs.foldlM step c = some c') :
    finish 256 (rs.map Request.bytes) c.offset ≤ c.len := by
  induction rs generalizing c with
  | nil => exact hc
  | cons r rs ih =>
    rw [List.foldlM_cons, Option.bind_eq_bind, Option.bind_eq_some_iff] at h
    obtain ⟨mid, hmid, hrest⟩ := h
    obtain ⟨rfl, hoffset⟩ := step_eq_some (hc.trans hlen) hmid
    exact ih (c := c.after r) hlen hoffset hrest

end ScratchCursor

/-! ### The size is enough -/

/-- The bytes of requests placed one after the other. -/
def alignedBytes (rs : List Request) : ℕ := roundUp 256 (finish 256 (rs.map Request.bytes) 0)

lemma finish_le_of_alignedBytes {rs : List Request} (h : alignedBytes rs < 2 ^ 64) :
    finish 256 (rs.map Request.bytes) 0 ≤ 2 ^ 64 - 256 := by
  have hle := le_roundUp (a := 256) (by decide) (finish 256 (rs.map Request.bytes) 0)
  obtain ⟨k, hk⟩ := dvd_roundUp (a := 256) (finish 256 (rs.map Request.bytes) 0)
  rw [alignedBytes] at h
  omega

section Traversal

variable {α : Type} {rs : List Request} {take : StateT ScratchCursor Option α}
  {views : α → List DeviceView} {sizer : ScratchSizer}

/-- The size counted for requests that are taken in the same order. -/
lemma count_of_alignedBytes (h : alignedBytes rs < 2 ^ 64) :
    ∃ s, rs.foldlM ScratchSizer.count .new = some s ∧ s.counted = rs ∧
      s.bytes = alignedBytes rs := by
  have hend := finish_le_of_alignedBytes h
  refine ⟨_, ScratchSizer.foldlM_count hend, rfl, ?_⟩
  exact alignUp_eq hend

lemma bound_of_alignedBytes (h : alignedBytes rs < 2 ^ 64)
    (htake : ∀ c, (take c).map Prod.snd = rs.foldlM ScratchCursor.step c)
    (hviews : ∀ c a c', take c = some (a, c') → c'.taken = c.taken ++ views a)
    {block : DeviceBlock} (hlen : alignedBytes rs ≤ block.len) :
    ∃ a c, take (.new block) = some (a, c) ∧ Bound block rs (views a) := by
  have hle : finish 256 (rs.map Request.bytes) 0 ≤ block.len :=
    (le_roundUp (by decide) _).trans hlen
  obtain ⟨c, hrun, hinv, htaken⟩ := ScratchCursor.foldlM_step (ScratchCursor.inv_new block)
    (finish_le_of_alignedBytes h) hle
  rw [← htake, Option.map_eq_some_iff] at hrun
  obtain ⟨⟨a, c⟩, hsome, rfl⟩ := hrun
  have hall : c.taken = views a := hviews _ _ _ hsome
  refine ⟨a, c, hsome, ?_, ?_, ?_, ?_⟩
  · rw [← hall]
    exact htaken
  · rw [← hall]
    exact hinv.aligned
  · rw [← hall]
    exact hinv.disjoint
  · intro v hv
    rw [← hall] at hv
    have hin := hinv.inside v hv
    have hoffset := hinv.offset_le
    rw [hinv.len_eq] at hoffset
    exact ⟨hin.1, by dsimp only at hin hoffset; omega⟩

/-- A block of the counted size ends at an aligned address, so no start wraps in it. -/
lemma alignedBytes_lt_of_take {block : DeviceBlock} {out : α × ScratchCursor}
    (htake : ∀ c, (take c).map Prod.snd = rs.foldlM ScratchCursor.step c)
    (hlen : block.len = sizer.bytes) (h : take (.new block) = some out) :
    alignedBytes rs < 2 ^ 64 := by
  have hsize : block.len ≤ 2 ^ 64 - 256 := hlen ▸ alignUp_le _
  have hrun := htake (.new block)
  rw [h, Option.map_some] at hrun
  have hend := ScratchCursor.finish_le_of_foldlM_step (c := .new block) hsize (Nat.zero_le _)
    hrun.symm
  have hround := roundUp_le (hend.trans hsize) (by decide : 256 ∣ 2 ^ 64 - 256)
  exact lt_of_le_of_lt hround (by decide)

end Traversal

/-! ### The two traversals -/

/-- The buffers of a FRI round. -/
def FriCommitPartLens.requests (part : FriCommitPartLens) : List Request :=
  [⟨.goldilocks, part.digestsLen⟩, ⟨.goldilocks, part.leavesLen⟩, ⟨.goldilocks, part.leavesLen⟩,
    ⟨.goldilocks, part.foldedLen⟩]

/-- Three trees and the buffers of the FRI rounds. -/
def postWitgenRequests (degree extensionDegree rateBits : ℕ) (reductionArityBits : List ℕ) :
    List Request :=
  List.replicate 3 ⟨.goldilocks, merkleTreeLen degree rateBits⟩ ++
    (commitPartLens degree extensionDegree rateBits reductionArityBits).flatMap
      FriCommitPartLens.requests

/-- Read map, witness and parameters. -/
def capturedRequests (readLen witnessLen paramsLen : ℕ) : List Request :=
  [⟨.u32, readLen⟩, ⟨.goldilocks, witnessLen⟩, ⟨.usize, paramsLen⟩]

lemma run_addCommitParts (parts : List FriCommitPartLens) (s : ScratchSizer) :
    (addCommitParts parts s).map Prod.snd =
      (parts.flatMap FriCommitPartLens.requests).foldlM ScratchSizer.count s := by
  induction parts generalizing s with
  | nil => rfl
  | cons part parts ih =>
    have hcons : addCommitParts (part :: parts) s =
        (ScratchSizer.add .goldilocks part.digestsLen s).bind fun s =>
        (ScratchSizer.add .goldilocks part.leavesLen s.2).bind fun s =>
        (ScratchSizer.add .goldilocks part.leavesLen s.2).bind fun s =>
        (ScratchSizer.add .goldilocks part.foldedLen s.2).bind fun s =>
          addCommitParts parts s.2 := rfl
    simp only [hcons, Option.map_bind, Function.comp_def, ih, List.flatMap_cons,
      FriCommitPartLens.requests, List.cons_append, List.nil_append, List.foldlM_cons,
      ScratchSizer.count, Option.bind_eq_bind, Option.bind_map]

/-- One round of the binding. -/
lemma bindParts_cons (part : FriCommitPartLens) (parts : List FriCommitPartLens)
    (c : ScratchCursor) :
    FriCommitBuffers.bindParts (part :: parts) c =
      (ScratchCursor.take .goldilocks part.digestsLen c).bind fun digests =>
      (ScratchCursor.take .goldilocks part.leavesLen digests.2).bind fun leaves =>
      (ScratchCursor.take .goldilocks part.leavesLen leaves.2).bind fun transposed =>
      (ScratchCursor.take .goldilocks part.foldedLen transposed.2).bind fun folded =>
      (FriCommitBuffers.bindParts parts folded.2).bind fun rest =>
        some (⟨digests.1 :: rest.1.treeDigests, leaves.1 :: rest.1.treeLeaves,
          transposed.1 :: rest.1.transposedTreeLeaves,
          folded.1 :: rest.1.foldedCoefficients⟩, rest.2) := rfl

lemma run_bindParts (parts : List FriCommitPartLens) (c : ScratchCursor) :
    (FriCommitBuffers.bindParts parts c).map Prod.snd =
      (parts.flatMap FriCommitPartLens.requests).foldlM ScratchCursor.step c := by
  induction parts generalizing c with
  | nil => rfl
  | cons part parts ih =>
    have hrest : ∀ (c : ScratchCursor) (f : FriCommitBuffers × ScratchCursor → FriCommitBuffers),
        ((FriCommitBuffers.bindParts parts c).bind fun rest =>
          some (f rest, rest.2)).map Prod.snd =
        (parts.flatMap FriCommitPartLens.requests).foldlM ScratchCursor.step c := by
      intro c f
      rw [← ih, Option.map_bind]
      cases FriCommitBuffers.bindParts parts c <;> rfl
    simp only [bindParts_cons, Option.map_bind, Function.comp_def, hrest, List.flatMap_cons,
      FriCommitPartLens.requests, List.cons_append, List.nil_append, List.foldlM_cons,
      ScratchCursor.step, Option.bind_eq_bind, Option.bind_map]

lemma taken_take {elem : Elem} {count : ℕ} {c c' : ScratchCursor} {v : DeviceView}
    (h : ScratchCursor.take elem count c = some (v, c')) : c'.taken = c.taken ++ [v] := by
  simp only [ScratchCursor.take, Option.bind_eq_bind, Option.bind_eq_some_iff] at h
  obtain ⟨size, -, stop, -, hview⟩ := h
  split_ifs at hview
  cases hview
  rfl

lemma taken_bindParts {parts : List FriCommitPartLens} {c c' : ScratchCursor}
    {b : FriCommitBuffers} (h : FriCommitBuffers.bindParts parts c = some (b, c')) :
    c'.taken = c.taken ++ b.views := by
  induction parts generalizing c b c' with
  | nil =>
    cases h
    simp [FriCommitBuffers.views]
  | cons part parts ih =>
    simp only [bindParts_cons, Option.bind_eq_some_iff, Prod.exists, Option.some.injEq,
      Prod.mk.injEq] at h
    obtain ⟨d, c₁, hd, l, c₂, hl, t, c₃, ht, f, c₄, hf, rest, c₅, hrest, rfl, rfl⟩ := h
    rw [ih hrest, taken_take hf, taken_take ht, taken_take hl, taken_take hd]
    simp [FriCommitBuffers.views]

/-- The delayed trees are not owned and have the length of the setup. -/
structure CommitmentBuffers.Delayed (b : CommitmentBuffers) (degree rateBits : ℕ) : Prop where
  treeLen_eq : b.treeLen = merkleTreeLen degree rateBits
  wires_not_owned : b.wires.owned = false
  partialProducts_not_owned : b.partialProducts.owned = false
  quotients_not_owned : b.quotients.owned = false

lemma CommitmentBuffers.delayed_new (degree rateBits : ℕ) (tree : DeviceView) :
    (new degree rateBits tree).Delayed degree rateBits :=
  ⟨rfl, rfl, rfl, rfl⟩

section Post

variable {b : CommitmentBuffers} {degree rateBits : ℕ}

/-- The trees are taken first, then the rounds. -/
lemma CommitmentBuffers.Delayed.bindPostWitgenViews_eq (hb : b.Delayed degree rateBits)
    (extensionDegree : ℕ) (reductionArityBits : List ℕ) (c : ScratchCursor) :
    b.bindPostWitgenViews degree extensionDegree rateBits reductionArityBits c =
      (ScratchCursor.take .goldilocks (merkleTreeLen degree rateBits) c).bind fun wires =>
      (ScratchCursor.take .goldilocks (merkleTreeLen degree rateBits) wires.2).bind fun zs =>
      (ScratchCursor.take .goldilocks (merkleTreeLen degree rateBits) zs.2).bind fun quotients =>
      (FriCommitBuffers.bindParts (commitPartLens degree extensionDegree rateBits
        reductionArityBits) quotients.2).bind fun fri =>
        some (({ b with
          wires := { b.wires with treeDevice := wires.1 }
          partialProducts := { b.partialProducts with treeDevice := zs.1 }
          quotients := { b.quotients with treeDevice := quotients.1 } }, fri.1), fri.2) := by
  simp only [bindPostWitgenViews, bindDelayedFromScratch, MerkleCapBuffers.bindFromScratch,
    FriCommitBuffers.bindFromScratch, hb.treeLen_eq, hb.wires_not_owned,
    hb.partialProducts_not_owned, hb.quotients_not_owned, Bool.false_eq_true, if_false, bind_assoc,
    pure_bind]
  rfl

lemma CommitmentBuffers.Delayed.run_bindPostWitgenViews (hb : b.Delayed degree rateBits)
    (extensionDegree : ℕ) (reductionArityBits : List ℕ) (c : ScratchCursor) :
    (b.bindPostWitgenViews degree extensionDegree rateBits reductionArityBits c).map Prod.snd =
      (postWitgenRequests degree extensionDegree rateBits reductionArityBits).foldlM
        ScratchCursor.step c := by
  have hrest : ∀ (c : ScratchCursor) (f : FriCommitBuffers × ScratchCursor →
      CommitmentBuffers × FriCommitBuffers),
      ((FriCommitBuffers.bindParts (commitPartLens degree extensionDegree rateBits
        reductionArityBits) c).bind fun fri => some (f fri, fri.2)).map Prod.snd =
      ((commitPartLens degree extensionDegree rateBits reductionArityBits).flatMap
        FriCommitPartLens.requests).foldlM ScratchCursor.step c := by
    intro c f
    rw [← run_bindParts, Option.map_bind]
    cases FriCommitBuffers.bindParts (commitPartLens degree extensionDegree rateBits
      reductionArityBits) c <;> rfl
  simp only [hb.bindPostWitgenViews_eq, Option.map_bind, Function.comp_def, hrest,
    postWitgenRequests, List.replicate, List.cons_append, List.nil_append, List.foldlM_cons,
    ScratchCursor.step, Option.bind_eq_bind, Option.bind_map]

lemma CommitmentBuffers.Delayed.taken_bindPostWitgenViews (hb : b.Delayed degree rateBits)
    {extensionDegree : ℕ} {reductionArityBits : List ℕ} {c c' : ScratchCursor}
    {out : CommitmentBuffers × FriCommitBuffers}
    (h : b.bindPostWitgenViews degree extensionDegree rateBits reductionArityBits c =
      some (out, c')) :
    c'.taken = c.taken ++ (out.1.views ++ out.2.views) := by
  simp only [hb.bindPostWitgenViews_eq, Option.bind_eq_some_iff, Prod.exists, Option.some.injEq,
    Prod.mk.injEq] at h
  obtain ⟨w, c₁, hw, z, c₂, hz, q, c₃, hq, fri, c₄, hfri, rfl, rfl⟩ := h
  rw [taken_bindParts hfri, taken_take hq, taken_take hz, taken_take hw]
  simp [CommitmentBuffers.views]

/-- The trees stay bound to the scratch, so the next prove binds them again. -/
lemma CommitmentBuffers.Delayed.bindPostWitgenViews (hb : b.Delayed degree rateBits)
    {extensionDegree : ℕ} {reductionArityBits : List ℕ} {c c' : ScratchCursor}
    {out : CommitmentBuffers × FriCommitBuffers}
    (h : b.bindPostWitgenViews degree extensionDegree rateBits reductionArityBits c =
      some (out, c')) : out.1.Delayed degree rateBits := by
  simp only [hb.bindPostWitgenViews_eq, Option.bind_eq_some_iff, Prod.exists, Option.some.injEq,
    Prod.mk.injEq] at h
  obtain ⟨w, c₁, hw, z, c₂, hz, q, c₃, hq, fri, c₄, hfri, rfl, rfl⟩ := h
  exact ⟨hb.treeLen_eq, hb.wires_not_owned, hb.partialProducts_not_owned, hb.quotients_not_owned⟩

end Post

lemma postWitgenSizer_eq (degree extensionDegree rateBits : ℕ) (reductionArityBits : List ℕ) :
    postWitgenSizer degree extensionDegree rateBits reductionArityBits =
      (postWitgenRequests degree extensionDegree rateBits reductionArityBits).foldlM
        ScratchSizer.count .new := by
  have hrun : postWitgenSizer degree extensionDegree rateBits reductionArityBits =
      ((ScratchSizer.add .goldilocks (merkleTreeLen degree rateBits) .new).bind fun s =>
      (ScratchSizer.add .goldilocks (merkleTreeLen degree rateBits) s.2).bind fun s =>
      (ScratchSizer.add .goldilocks (merkleTreeLen degree rateBits) s.2).bind fun s =>
        addCommitParts (commitPartLens degree extensionDegree rateBits reductionArityBits)
          s.2).map Prod.snd := by
    rw [Option.map_eq_bind]
    rfl
  simp only [hrun, Option.map_bind, Function.comp_def, run_addCommitParts, postWitgenRequests,
    List.replicate, List.cons_append, List.nil_append, List.foldlM_cons, ScratchSizer.count,
    Option.bind_eq_bind, Option.bind_map]

lemma witgenCapturedSizer_eq (readLen witnessLen paramsLen : ℕ) :
    witgenCapturedSizer readLen witnessLen paramsLen =
      (capturedRequests readLen witnessLen paramsLen).foldlM ScratchSizer.count .new := by
  have hrun : witgenCapturedSizer readLen witnessLen paramsLen =
      ((ScratchSizer.add .u32 readLen .new).bind fun s =>
      (ScratchSizer.add .goldilocks witnessLen s.2).bind fun s =>
        ScratchSizer.add .usize paramsLen s.2).map Prod.snd := by
    rw [Option.map_eq_bind]
    rfl
  simp only [hrun, Option.map_eq_bind, capturedRequests, List.foldlM_cons, List.foldlM_nil,
    ScratchSizer.count, Option.bind_eq_bind, Option.pure_def, Option.bind_assoc, Option.bind_some,
    Function.comp_def]

/-- The captured views are taken in order. -/
lemma bindCapturedViews_eq (readLen witnessLen paramsLen : ℕ) (c : ScratchCursor) :
    bindCapturedViews readLen witnessLen paramsLen c =
      (ScratchCursor.take .u32 readLen c).bind fun readMap =>
      (ScratchCursor.take .goldilocks witnessLen readMap.2).bind fun witness =>
      (ScratchCursor.take .usize paramsLen witness.2).bind fun params =>
        some (⟨readMap.1, witness.1, params.1⟩, params.2) := rfl

lemma run_bindCapturedViews (readLen witnessLen paramsLen : ℕ) (c : ScratchCursor) :
    (bindCapturedViews readLen witnessLen paramsLen c).map Prod.snd =
      (capturedRequests readLen witnessLen paramsLen).foldlM ScratchCursor.step c := by
  simp only [bindCapturedViews_eq, Option.map_bind, Function.comp_def, capturedRequests,
    List.foldlM_cons, List.foldlM_nil, ScratchCursor.step, Option.bind_eq_bind, Option.bind_map,
    Option.pure_def, Option.map_some]

def CapturedViews.views (v : CapturedViews) : List DeviceView := [v.readMap, v.witness, v.params]

lemma taken_bindCapturedViews {readLen witnessLen paramsLen : ℕ} {c c' : ScratchCursor}
    {v : CapturedViews} (h : bindCapturedViews readLen witnessLen paramsLen c = some (v, c')) :
    c'.taken = c.taken ++ v.views := by
  simp only [bindCapturedViews_eq, Option.bind_eq_some_iff, Prod.exists, Option.some.injEq,
    Prod.mk.injEq] at h
  obtain ⟨r, c₁, hr, w, c₂, hw, p, c₃, hp, rfl, rfl⟩ := h
  rw [taken_take hp, taken_take hw, taken_take hr]
  simp [CapturedViews.views]

/-! ### Main result -/

/-- The size of `post_witgen_bytes` is computed, and the views of a prove are bound in every block
that `bind_post_witgen_views` obtains for it. -/
def PostWitgenViewsFit (degree extensionDegree rateBits : ℕ) (reductionArityBits : List ℕ) :
    Prop :=
  ∃ sizer, postWitgenSizer degree extensionDegree rateBits reductionArityBits = some sizer ∧
    ∀ (w : GpuWorkspace) (device : Allocator) (keepSoa overlaySoa : Bool) (block : DeviceBlock),
      w.commitments.Delayed degree rateBits →
      w.postScratch device sizer.bytes keepSoa overlaySoa = some block →
      ∃ out cursor, w.commitments.bindPostWitgenViews degree extensionDegree rateBits
          reductionArityBits (.new block) = some (out, cursor) ∧
        Bound block sizer.counted (out.1.views ++ out.2.views)

/-- The size of `witgen_captured_bytes` is computed, and the captured views are bound in every
block that `ensure_scratch_bytes` leaves for it. -/
def CapturedViewsFit (readLen witnessLen paramsLen : ℕ) : Prop :=
  ∃ sizer, witgenCapturedSizer readLen witnessLen paramsLen = some sizer ∧
    ∀ (scratch : DeviceBlock) (device : Allocator) (block : DeviceBlock),
      ensureScratchBytes scratch device sizer.bytes = some block →
      ∃ out cursor, bindCapturedViews readLen witnessLen paramsLen (.new block) =
          some (out, cursor) ∧
        Bound block sizer.counted out.views

/-- Every branch gives a block of at least the counted size. -/
lemma GpuWorkspace.le_postScratch {w : GpuWorkspace} {device : Allocator} {post : ℕ}
    {keepSoa overlaySoa : Bool} {block : DeviceBlock}
    (h : w.postScratch device post keepSoa overlaySoa = some block) : post ≤ block.len := by
  unfold postScratch at h
  split_ifs at h with hkeep hoverlay hlen
  · exact (device.len_alloc _ _ h).ge
  · cases h
    exact hlen
  · exact (device.len_alloc _ _ h).ge

lemma le_ensureScratchBytes {scratch block : DeviceBlock} {device : Allocator} {needed : ℕ}
    (h : ensureScratchBytes scratch device needed = some block) : needed ≤ block.len := by
  unfold ensureScratchBytes at h
  split_ifs at h with hlen
  · cases h
    exact hlen
  · exact (device.len_alloc _ _ h).ge

/-- A device that never refuses a request. -/
def Allocator.unlimited : Allocator where
  alloc := fun n => some ⟨0, n, Nat.dvd_zero _⟩
  len_alloc := by
    intro n block h
    cases h
    rfl

/-- The scratch before the witness generation. -/
def DeviceBlock.null : DeviceBlock := ⟨0, 0, Nat.dvd_zero _⟩

lemma postWitgenViewsFit_iff (degree extensionDegree rateBits : ℕ) (reductionArityBits : List ℕ) :
    PostWitgenViewsFit degree extensionDegree rateBits reductionArityBits ↔
      alignedBytes (postWitgenRequests degree extensionDegree rateBits reductionArityBits) <
        2 ^ 64 := by
  constructor
  · rintro ⟨sizer, -, hbind⟩
    let commitments := CommitmentBuffers.new degree rateBits ⟨.goldilocks, 0, 0⟩
    have hdelayed := CommitmentBuffers.delayed_new degree rateBits ⟨.goldilocks, 0, 0⟩
    obtain ⟨out, cursor, hsome, -⟩ := hbind ⟨commitments, .null, .null⟩ .unlimited true false _
      hdelayed rfl
    exact alignedBytes_lt_of_take (hdelayed.run_bindPostWitgenViews _ _) rfl hsome
  · intro hlt
    obtain ⟨sizer, hsizer, hcounted, hbytes⟩ := count_of_alignedBytes hlt
    refine ⟨sizer, ?_, ?_⟩
    · rw [postWitgenSizer_eq]
      exact hsizer
    · intro w device keepSoa overlaySoa block hdelayed hblock
      have hlen := GpuWorkspace.le_postScratch hblock
      rw [hbytes] at hlen
      rw [hcounted]
      refine bound_of_alignedBytes hlt (hdelayed.run_bindPostWitgenViews _ _) ?_ hlen
      exact fun _ _ _ h => hdelayed.taken_bindPostWitgenViews h

lemma capturedViewsFit_iff (readLen witnessLen paramsLen : ℕ) :
    CapturedViewsFit readLen witnessLen paramsLen ↔
      alignedBytes (capturedRequests readLen witnessLen paramsLen) < 2 ^ 64 := by
  constructor
  · rintro ⟨sizer, -, hbind⟩
    obtain ⟨out, cursor, hsome, -⟩ := hbind ⟨0, sizer.bytes, Nat.dvd_zero _⟩ .unlimited
      ⟨0, sizer.bytes, Nat.dvd_zero _⟩ (if_pos le_rfl)
    exact alignedBytes_lt_of_take (run_bindCapturedViews _ _ _) rfl hsome
  · intro hlt
    obtain ⟨sizer, hsizer, hcounted, hbytes⟩ := count_of_alignedBytes hlt
    refine ⟨sizer, ?_, ?_⟩
    · rw [witgenCapturedSizer_eq]
      exact hsizer
    · intro scratch device block hblock
      have hlen := le_ensureScratchBytes hblock
      rw [hbytes] at hlen
      rw [hcounted]
      exact bound_of_alignedBytes hlt (run_bindCapturedViews _ _ _)
        (fun _ _ _ h => taken_bindCapturedViews h) hlen

end MegaZK
