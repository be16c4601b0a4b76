import MegaZK.Query.Siblings
import MegaZK.Transcript.Agreement

/-! # Hashing the leaves of a tree

`build_merkle_tree`: a thread hashes one leaf, whose words lie as far apart as there are leaves, and
the layers of nodes follow the digests of the leaves. -/

namespace MegaZK

open Cover MerklePath

variable {F : Type} [Zero F] (permute : (Fin 12 → F) → Fin 12 → F)

/-! ### Source -/

/-- `hash_or_noop`: up to four elements are their own hash. -/
def hashOrNoop (inputs : List F) : HashOut F :=
  if inputs.length ≤ 4 then fun j => inputs.getD j 0
  else fun j => lane (absorbChunks permute inputs) j

/-- `compress`. -/
def compress (x y : HashOut F) : HashOut F := fun j =>
  lane (permute (overwrite (fun _ => 0) 8 ((List.ofFn x ++ List.ofFn y).getD · 0))) j

/-- The loop of `single_thread_leaves_impl` over the columns of a leaf. -/
def leafState (value : ℕ → F) (colsCount : ℕ) : Fin 12 → F :=
  (List.range ((colsCount + 7) / 8)).foldl
    (fun state i =>
      let state := fun j : Fin 12 =>
        if (j : ℕ) < 8 ∧ 8 * i + j < colsCount then value (8 * i + j) else state j
      if 4 < colsCount then permute state else state)
    (fun _ => 0)

/-- The word of a leaf in a column. -/
def leafWord (count gid col : ℕ) : ℕ := gid + u32 (col * count)

/-- The threads that `launch_leaves_kernel` launches. -/
def leavesIds (count : ℕ) : Option (List ℕ) :=
  let blockDim := min count 64
  gridIds (u32 (count + blockDim - 1) / blockDim) blockDim count

/-- `launch_leaves_kernel` on the first `results_len` words of a buffer, with one row for each
hash. -/
def launchLeavesKernel (values : DeviceBuffer F) (resultsLen : ℕ) (b : DeviceBuffer F) :
    Option (DeviceBuffer F) := do
  let count := resultsLen / 4
  guard (resultsLen % 4 = 0 ∧ count ≠ 0 ∧ values.len % count = 0)
  let colsCount := values.len / count
  guard (colsCount < 2 ^ 32 ∧ count < 2 ^ 32)
  let ids ← leavesIds count
  b.storeAll (ids.flatMap fun gid => (List.finRange 4).map fun j =>
    (u32 (gid * 4) + j,
      lane (leafState permute (fun col => values.cell (leafWord count gid col)) colsCount) j))

/-- `build_merkle_tree`, with one row for each hash. -/
def buildMerkleTree (values b : DeviceBuffer F) (layersCount : ℕ) : Option (DeviceBuffer F) := do
  let leavesCount := b.len / 8
  guard (layersCount ≠ 0 ∧ b.len % 8 = 0 ∧ 1 <<< (layersCount - 1) ≤ leavesCount ∧
    values.len % leavesCount = 0)
  let b ← launchLeavesKernel permute values (b.len / 2) b
  let cell ← buildMerkleTreeNodes (compress permute) (layersCount - 1) 0 (b.len / 2) b.cell
  return { b with cell }

/-! ### Leaves -/

/-- The kernel hashes the words of a leaf. -/
lemma leafState_eq (value : ℕ → F) {colsCount : ℕ} (hpos : 0 < colsCount) (j : Fin 4) :
    lane (leafState permute value colsCount) j =
      hashOrNoop permute ((List.range colsCount).map value) j := by
  have hj := j.isLt
  by_cases hshort : colsCount ≤ 4
  · have hone : (colsCount + 7) / 8 = 1 := by omega
    have hlane : (j : ℕ) < 12 := by omega
    have hnot : ¬4 < colsCount := by omega
    simp only [hashOrNoop, List.length_map, List.length_range, if_pos hshort, leafState, hone,
      List.range_one, List.foldl_cons, List.foldl_nil, if_neg hnot, lane, dif_pos hlane]
    by_cases hcol : (j : ℕ) < colsCount
    · rw [getD_map_range hcol, if_pos ⟨by omega, by omega⟩, Nat.mul_zero, Nat.zero_add]
    · rw [if_neg (by omega), List.getD_eq_default _ _ (by simpa using hcol)]
  · have hlen : ¬((List.range colsCount).map value).length ≤ 4 := by simpa using hshort
    rw [hashOrNoop, if_neg hlen, leafState, absorbChunks, List.length_map, List.length_range]
    congr 1
    apply List.foldl_ext
    intro state i hi
    have hi := List.mem_range.mp hi
    rw [if_pos (by omega)]
    congr 1
    rw [overwrite_rateChunk state value (m := min 8 (colsCount - 8 * i)) (by omega)]
    funext k
    simp only [overwrite]
    by_cases hcol : (k : ℕ) < 8 ∧ 8 * i + k < colsCount
    · rw [if_pos hcol, if_pos (by omega), Nat.add_comm]
    · rw [if_neg hcol, if_neg (by omega)]

lemma leavesIds_spec {count : ℕ} (hpos : 0 < count) (hcount : count ≤ 2 ^ 30) :
    ∃ ids, leavesIds count = some ids ∧ ∀ gid, gid ∈ ids ↔ gid < count := by
  by_cases hsmall : count ≤ 64
  · have hgrid : (count + count - 1) / count = 1 := by
      rw [Nat.div_eq_iff hpos]
      omega
    have hvalid : ValidLaunch 1 1 count := by
      refine ⟨⟨by decide, by decide⟩, ⟨by decide, by decide⟩, hpos, ?_⟩
      have hmax : 64 ≤ maxThreadsPerBlock := by decide
      omega
    rw [leavesIds, min_eq_left hsmall, u32_of_lt (by omega), hgrid]
    exact gridIds_spec count hvalid (by omega) (by omega)
  · rw [leavesIds, min_eq_right (by omega), u32_of_lt (by omega)]
    have hvalid : ValidLaunch 1 ((count + 64 - 1) / 64) 64 := by
      refine ⟨⟨by decide, by decide⟩, ⟨by omega, by omega⟩, by decide, by decide⟩
    exact gridIds_spec count hvalid (by omega) (by omega)

/-- The digests of the leaves lie one after the other. -/
lemma covers_leaves {ids : List ℕ} {count : ℕ} (hids : ∀ gid, gid ∈ ids ↔ gid < count)
    (hcount : count ≤ 2 ^ 30) :
    Covers (ids ×ˢ List.finRange 4) (fun x => u32 (x.1 * 4) + x.2) 0 (count * 4) := by
  rw [covers_congr (f := fun x => x.1 * 4 + x.2)]
  · refine covers_stride (bijOn_pair ?_ ?_ ?_)
    · rintro ⟨gid, j⟩ hx
      exact ⟨(hids gid).mp (List.mem_product.mp hx).1, j.isLt⟩
    · rintro ⟨gid, j⟩ - ⟨gid', j'⟩ - hgid hj
      obtain rfl : gid = gid' := hgid
      obtain rfl : j = j' := Fin.ext hj
      rfl
    · intro gid hgid j hj
      refine ⟨(gid, ⟨j, hj⟩), ?_, rfl, rfl⟩
      exact List.mem_product.mpr ⟨(hids gid).mpr hgid, List.mem_finRange _⟩
  · rintro ⟨gid, j⟩ hx
    have hgid := (hids gid).mp (List.mem_product.mp hx).1
    dsimp only
    rw [u32_of_lt (by omega)]

/-- The leaf with number `gid`, word after word. -/
def leafOf (values : ℕ → F) (count colsCount gid : ℕ) : List F :=
  (List.range colsCount).map fun col => values (col * count + gid)

section Tree

variable {colsCount : ℕ} (hcols : 0 < colsCount) (hcols_lt : colsCount < 2 ^ 32)

include hcols hcols_lt

lemma launchLeavesKernel_spec {count : ℕ} (hpos : 0 < count) (hcount : count ≤ 2 ^ 30)
    (hsize : colsCount * count ≤ 2 ^ 32) (values b : DeviceBuffer F)
    (hvalues : values.len = colsCount * count) (hlen : count * 4 ≤ b.len) :
    ∃ b', launchLeavesKernel permute values (count * 4) b = some b' ∧ b'.len = b.len ∧
      ∀ gid < count, digestAt b'.cell gid =
        hashOrNoop permute (leafOf values.cell count colsCount gid) := by
  obtain ⟨ids, hids, hmem⟩ := leavesIds_spec hpos hcount
  have hdiv : count * 4 / 4 = count := Nat.mul_div_cancel _ (by decide)
  have hcols_eq : values.len / count = colsCount := by
    rw [hvalues, Nat.mul_div_cancel _ hpos]
  have hmod : count * 4 % 4 = 0 ∧ count ≠ 0 ∧ values.len % count = 0 := by
    refine ⟨Nat.mul_mod_left _ _, hpos.ne', ?_⟩
    rw [hvalues, Nat.mul_mod_left]
  have hword : colsCount < 2 ^ 32 ∧ count < 2 ^ 32 := ⟨hcols_lt, by omega⟩
  let digest := fun gid =>
    leafState permute (fun col => values.cell (leafWord count gid col)) colsCount
  obtain ⟨b', hb', hlen', hcells⟩ := b.storeAll_of_covers (covers_leaves hmem hcount) hlen
    (fun x => lane (digest x.1) x.2)
    (show ∀ w, w ∈ (ids.flatMap fun gid => (List.finRange 4).map fun j =>
      (u32 (gid * 4) + j, lane (digest gid) j)) ↔ _ by simp)
  refine ⟨b', ?_, hlen', ?_⟩
  · rw [launchLeavesKernel]
    dsimp only
    rw [hdiv, hcols_eq, hids]
    simp only [guard, if_pos hmod, if_pos hword]
    exact hb'
  · intro gid hgid
    funext j
    have hcell := hcells (gid, j) (List.mem_product.mpr ⟨(hmem gid).mpr hgid, List.mem_finRange j⟩)
    rw [leafState_eq permute _ hcols] at hcell
    have hwords : (List.range colsCount).map (fun col => values.cell (leafWord count gid col)) =
        leafOf values.cell count colsCount gid := by
      refine List.map_congr_left ?_
      intro col hcol
      have hfits : col * count < 2 ^ 32 := by
        calc col * count < colsCount * count :=
              Nat.mul_lt_mul_of_pos_right (List.mem_range.mp hcol) hpos
          _ ≤ 2 ^ 32 := hsize
      rw [leafWord, u32_of_lt hfits, add_comm]
    rw [← hwords, ← hcell, digestAt, u32_of_lt (by omega), mul_comm]

/-- The digests are those of the leaves, and the nodes over them make a tree. -/
theorem buildMerkleTree_spec {logN : ℕ} (hlog : logN ≤ 30) (hsize : colsCount * 2 ^ logN ≤ 2 ^ 32)
    (values b : DeviceBuffer F) (hvalues : values.len = colsCount * 2 ^ logN)
    (hlen : b.len = 8 * 2 ^ logN) :
    ∃ b', buildMerkleTree permute values b (logN + 1) = some b' ∧ b'.len = b.len ∧
      (∀ gid < 2 ^ logN, nodeAt b'.cell logN 0 gid =
        hashOrNoop permute (leafOf values.cell (2 ^ logN) colsCount gid)) ∧
      IsTree (compress permute) (nodeAt b'.cell logN) logN logN := by
  have hpos : 0 < 2 ^ logN := Nat.two_pow_pos logN
  have hhalf : b.len / 2 = 2 ^ logN * 4 := by omega
  have hleaves : b.len / 8 = 2 ^ logN := by omega
  obtain ⟨b₁, hb₁, hlen₁, hdigests⟩ := launchLeavesKernel_spec permute hcols hcols_lt hpos
    (Nat.pow_le_pow_right (by decide) hlog) hsize values b hvalues (by omega)
  obtain ⟨cell, hcell, hkept, htree⟩ :=
    isTree_buildMerkleTreeNodes (compress permute) hlog le_rfl b₁.cell
  have hguard : logN + 1 ≠ 0 ∧ b.len % 8 = 0 ∧ 1 <<< (logN + 1 - 1) ≤ b.len / 8 ∧
      values.len % (b.len / 8) = 0 := by
    refine ⟨Nat.succ_ne_zero _, by omega, ?_, ?_⟩
    · rw [Nat.add_sub_cancel, Nat.one_shiftLeft, hleaves]
    · rw [hleaves, hvalues, Nat.mul_mod_left]
  refine ⟨{ b₁ with cell }, ?_, hlen₁, ?_, htree⟩
  · rw [buildMerkleTree]
    simp only [guard, if_pos hguard, hhalf]
    simp only [Option.bind_eq_bind, Option.pure_def, Option.bind_some, hb₁, Nat.add_sub_cancel,
      hlen₁, hhalf]
    rw [mul_comm] at hcell
    rw [hcell, Option.bind_some]
  · intro gid hgid
    rw [hkept gid hgid, nodeAt, layerOffset_zero, Nat.zero_add, hdigests gid hgid]

end Tree

end MegaZK
