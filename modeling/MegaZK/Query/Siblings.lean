import MegaZK.Lib.MerklePath
import MegaZK.Query.Leaves

/-! # Merkle paths of the queries

The trees lie in the device memory layer after layer, from the leaves on. The query kernels read
the siblings of a leaf there, and the cap is a slice of the same buffer. -/

namespace MegaZK

open MerklePath Scatter

variable {F : Type}

/-- `HashOut`. -/
abbrev HashOut (F : Type) := Fin 4 → F

/-- The digest number `k` of a buffer. -/
def digestAt (cell : ℕ → F) (k : ℕ) : HashOut F := fun j => cell (4 * k + j)

/-- The number of the first digest of layer `i` over `2 ^ logN` leaves. -/
def layerOffset (logN i : ℕ) : ℕ := 2 ^ (logN + 1) - 2 ^ (logN + 1 - i)

/-- Node `k` of layer `i`. -/
def nodeAt (cell : ℕ → F) (logN i k : ℕ) : HashOut F := digestAt cell (layerOffset logN i + k)

lemma layerOffset_zero (logN : ℕ) : layerOffset logN 0 = 0 := by simp [layerOffset]

lemma layerOffset_succ (logN i : ℕ) (hi : i ≤ logN) :
    layerOffset logN (i + 1) = layerOffset logN i + 2 ^ (logN - i) := by
  have hle : 2 ^ (logN + 1 - i) ≤ 2 ^ (logN + 1) := Nat.pow_le_pow_right (by norm_num) (by omega)
  have hhalf : 2 ^ (logN + 1 - i) = 2 * 2 ^ (logN - i) := by
    rw [Nat.sub_add_comm hi, pow_succ']
  have hnext : logN + 1 - (i + 1) = logN - i := by omega
  simp only [layerOffset, hnext]
  omega

/-! ### Building a tree -/

/-- `single_thread_nodes_impl`: `count` digests from `results` on, each of two neighbours from
`values` on. -/
def nodesKernel (twoToOne : HashOut F → HashOut F → HashOut F) (values results count : ℕ)
    (cell : ℕ → F) : ℕ → F :=
  let words := (List.range count).flatMap fun gid => (List.finRange 4).map fun j => (gid, j)
  scatter words (fun w => results + u32 (w.1 * 4) + w.2)
    (fun w =>
      let start := values + u32 (w.1 * 4 * 2)
      twoToOne (fun j => cell (start + j)) (fun j => cell (start + 4 + j)) w.2) cell

/-- `build_merkle_tree_nodes`: `values` are the `len` words from `start` on, and the results follow
them. The parents fill half of the results and are the next values. -/
def buildMerkleTreeNodes (twoToOne : HashOut F → HashOut F → HashOut F) :
    ℕ → ℕ → ℕ → (ℕ → F) → Option (ℕ → F)
  | 0, _, _, cell => some cell
  | layersCount + 1, start, len, cell =>
    if len % 8 = 0 ∧ len / 8 = 2 ^ Nat.log2 (len / 8) then
      buildMerkleTreeNodes twoToOne layersCount (start + len) (len / 2)
        (nodesKernel twoToOne start (start + len) (len / 8) cell)
    else none

lemma nodesKernel_written (twoToOne : HashOut F → HashOut F → HashOut F) (values results : ℕ)
    {count : ℕ} (hcount : count ≤ 2 ^ 29) (cell : ℕ → F) {gid : ℕ} (hgid : gid < count)
    (j : Fin 4) :
    nodesKernel twoToOne values results count cell (results + 4 * gid + j) =
      twoToOne (fun j => cell (values + 8 * gid + j)) (fun j => cell (values + 8 * gid + 4 + j))
        j := by
  have hwords : ∀ w : ℕ × Fin 4,
      w ∈ ((List.range count).flatMap fun gid => (List.finRange 4).map fun j => (gid, j)) ↔
        w.1 < count := by
    rintro ⟨gid, j⟩
    simp
  have hdst : ∀ gid < count, u32 (gid * 4) = 4 * gid := by
    intro gid hgid
    rw [u32_of_lt (by omega), Nat.mul_comm]
  have hsrc : u32 (gid * 4 * 2) = 8 * gid := by
    rw [u32_of_lt (by omega)]
    omega
  unfold nodesKernel
  dsimp only
  apply scatter_of_forall_eq
  · exact ⟨(gid, j), (hwords _).mpr hgid, by rw [hdst gid hgid]⟩
  · rintro ⟨gid', j'⟩ hmem heq
    have hgid' := (hwords _).mp hmem
    simp only [hdst gid' hgid'] at heq
    have hj := j.isLt
    have hj' := j'.isLt
    obtain rfl : gid' = gid := by omega
    obtain rfl : j' = j := by
      apply Fin.ext
      omega
    simp only [hsrc]

lemma nodesKernel_of_lt (twoToOne : HashOut F → HashOut F → HashOut F) (values : ℕ) {results : ℕ}
    (count : ℕ) (cell : ℕ → F) {a : ℕ} (ha : a < results) :
    nodesKernel twoToOne values results count cell a = cell a := by
  apply scatter_of_forall_ne
  intro w _
  omega

/-- The layers from `i` on are built over the digests of layer `i`, which stay. -/
lemma buildMerkleTreeNodes_spec (twoToOne : HashOut F → HashOut F → HashOut F) {logN : ℕ}
    (hlog : logN ≤ 30) (layers i : ℕ) (hi : i + layers ≤ logN) (cell : ℕ → F) :
    ∃ cell', buildMerkleTreeNodes twoToOne layers (4 * layerOffset logN i) (4 * 2 ^ (logN - i))
        cell = some cell' ∧
      (∀ a < 4 * layerOffset logN (i + 1), cell' a = cell a) ∧
      ∀ l, i ≤ l → l < i + layers → ∀ k < 2 ^ (logN - (l + 1)),
        nodeAt cell' logN (l + 1) k =
          twoToOne (nodeAt cell' logN l (2 * k)) (nodeAt cell' logN l (2 * k + 1)) := by
  induction layers generalizing i cell with
  | zero =>
    refine ⟨cell, rfl, fun _ _ => rfl, ?_⟩
    intro l hl hlt
    omega
  | succ layers ih =>
    have hhalf : 2 ^ (logN - i) = 2 * 2 ^ (logN - (i + 1)) := by
      rw [← pow_succ']
      congr 1
      omega
    have hnext := layerOffset_succ logN i (by omega)
    have hnext' := layerOffset_succ logN (i + 1) (by omega)
    have hcount : 2 ^ (logN - (i + 1)) ≤ 2 ^ 29 := Nat.pow_le_pow_right (by norm_num) (by omega)
    have hlen : 4 * 2 ^ (logN - i) % 8 = 0 ∧
        4 * 2 ^ (logN - i) / 8 = 2 ^ Nat.log2 (4 * 2 ^ (logN - i) / 8) := by
      have hdiv : 4 * 2 ^ (logN - i) / 8 = 2 ^ (logN - (i + 1)) := by omega
      rw [hdiv, Nat.log2_two_pow]
      omega
    have hdiv : 4 * 2 ^ (logN - i) / 8 = 2 ^ (logN - (i + 1)) := by omega
    have hresults : 4 * layerOffset logN i + 4 * 2 ^ (logN - i) = 4 * layerOffset logN (i + 1) := by
      omega
    have hrest : 4 * 2 ^ (logN - i) / 2 = 4 * 2 ^ (logN - (i + 1)) := by omega
    obtain ⟨cell', hbuild, hkept, htree⟩ := ih (i + 1) (by omega)
      (nodesKernel twoToOne (4 * layerOffset logN i) (4 * layerOffset logN (i + 1))
        (2 ^ (logN - (i + 1))) cell)
    refine ⟨cell', ?_, ?_, ?_⟩
    · rw [buildMerkleTreeNodes, if_pos hlen, hdiv, hresults, hrest, hbuild]
    · intro a ha
      rw [hkept a (by omega), nodesKernel_of_lt _ _ _ _ ha]
    · intro l hl hlt k hk
      rcases Nat.eq_or_lt_of_le hl with rfl | hl
      · -- the layer that this round stores
        have hchild : ∀ c, c < 2 ^ (logN - i) →
            nodeAt cell' logN i c = fun j : Fin 4 => cell (4 * layerOffset logN i + 4 * c + j) := by
          intro c hc
          funext j
          have hj := j.isLt
          rw [nodeAt, digestAt, hkept _ (by omega), nodesKernel_of_lt _ _ _ _ (by omega),
            Nat.mul_add]
        rw [hchild (2 * k) (by omega), hchild (2 * k + 1) (by omega)]
        funext j
        have hj := j.isLt
        rw [nodeAt, digestAt, hkept _ (by omega), Nat.mul_add,
          nodesKernel_written twoToOne _ _ hcount cell hk j]
        congr 1 <;> (funext j; congr 1; omega)
      · exact htree l hl (by omega) k hk

/-- The tree that `build_merkle_tree_nodes` leaves over the digests of the leaves. -/
theorem isTree_buildMerkleTreeNodes (twoToOne : HashOut F → HashOut F → HashOut F) {logN : ℕ}
    (hlog : logN ≤ 30) {height : ℕ} (hheight : height ≤ logN) (cell : ℕ → F) :
    ∃ cell', buildMerkleTreeNodes twoToOne height 0 (4 * 2 ^ logN) cell = some cell' ∧
      (∀ k < 2 ^ logN, nodeAt cell' logN 0 k = nodeAt cell logN 0 k) ∧
      IsTree twoToOne (nodeAt cell' logN) logN height := by
  obtain ⟨cell', hbuild, hkept, htree⟩ :=
    buildMerkleTreeNodes_spec twoToOne hlog height 0 (by omega) cell
  rw [layerOffset_zero, Nat.mul_zero, Nat.sub_zero] at hbuild
  refine ⟨cell', hbuild, ?_, ?_⟩
  · intro k hk
    have hnext := layerOffset_succ logN 0 (Nat.zero_le logN)
    rw [layerOffset_zero, Nat.sub_zero, Nat.zero_add] at hnext
    funext j
    have hj := j.isLt
    rw [nodeAt, nodeAt, digestAt, digestAt, layerOffset_zero, hkept _ (by rw [hnext]; omega)]
  · intro l hl k hk
    exact htree l (Nat.zero_le l) (by omega) k hk

/-! ### Verification -/

/-- The digests of a cap, as `copy_w_offset` copies them. -/
def capHashes (tree : DeviceBuffer F) (capHeight : ℕ) : List (HashOut F) :=
  (List.range (capLen capHeight / 4)).map fun i j =>
    tree.cell (u32 (u32 (capOffset tree.len capHeight) + (4 * i + j)))

lemma assembleCap_eq (tree : DeviceBuffer F) (capHeight : ℕ) :
    assembleCap tree capHeight = (capHashes tree capHeight).map List.ofFn := by
  simp [assembleCap, capHashes, List.ofFn_succ, Function.comp_def]

/-- `verify_merkle_proof_to_cap`; an index outside the cap panics. -/
def verifyMerkleProofToCap [DecidableEq F] (hashOrNoop : List F → HashOut F)
    (twoToOne : HashOut F → HashOut F → HashOut F) (leafData : List F) (leafIndex : ℕ)
    (merkleCap siblings : List (HashOut F)) : Option (Except String Unit) := do
  let (index, currentDigest) := climb twoToOne siblings leafIndex (hashOrNoop leafData)
  let root ← merkleCap[index]?
  return if currentDigest = root then .ok () else .error "Invalid Merkle proof."

/-! ### The indices of the siblings -/

/-- `id` has `i` ones above its lowest bit, and then a zero. -/
lemma siblingLayer_eq (p i : ℕ) {e fuel : ℕ} (layer : ℕ) (he : e < 2) (hfuel : i < fuel) :
    siblingLayer fuel (2 * (p * 2 ^ (i + 1) + (2 ^ i - 1)) + e) layer = layer + i := by
  induction i generalizing e fuel layer with
  | zero =>
    cases fuel with
    | zero => omega
    | succ fuel =>
      have hid : (2 * (p * 2 ^ (0 + 1) + (2 ^ 0 - 1)) + e) >>> 1 = 2 * p := by
        rw [Nat.shiftRight_one]
        omega
      rw [siblingLayer, hid]
      simp
  | succ i ih =>
    cases fuel with
    | zero => omega
    | succ fuel =>
      have hpow : 2 ^ (i + 1) = 2 * 2 ^ i := pow_succ' 2 i
      have hpow' : p * 2 ^ (i + 1 + 1) = 2 * (p * 2 ^ (i + 1)) := by
        rw [pow_succ' 2 (i + 1)]
        ring
      have hpos : 0 < 2 ^ i := by positivity
      have hid : (2 * (p * 2 ^ (i + 1 + 1) + (2 ^ (i + 1) - 1)) + e) >>> 1 =
          2 * (p * 2 ^ (i + 1) + (2 ^ i - 1)) + 1 := by
        rw [Nat.shiftRight_one]
        omega
      have hodd : (2 * (p * 2 ^ (i + 1) + (2 ^ i - 1)) + 1) % 2 = 1 := by omega
      rw [siblingLayer, hid]
      simp only [hodd, if_true]
      rw [ih (layer + 1) (by norm_num) (by omega)]
      omega

lemma subU64_of_le {a b : ℕ} (hab : b ≤ a) (ha : a < 2 ^ 64) : subU64 a b = a - b := by
  rw [subU64, Nat.sub_add_comm hab, Nat.add_mod_right]
  exact Nat.mod_eq_of_lt (by omega)

/-- One round of the walk: the digest beside node `2 * p + b` of layer `i`, in the subtree `t`. -/
lemma siblingIndex_eq {numLayers fullLayers t i p b : ℕ} (hi : i < numLayers)
    (hfull : numLayers < fullLayers) (hfull_le : fullLayers ≤ 30) (hb : b < 2)
    (hp : p * 2 ^ (i + 1) < 2 ^ 30) (ht : t * 2 ^ numLayers < 2 ^ 30) :
    siblingIndex numLayers fullLayers t i p b =
      some (2 ^ fullLayers - 2 ^ (fullLayers - i) + (t * 2 ^ (numLayers - i) + (2 * p + (1 - b)))) := by
  have hA : 0 < 2 ^ i := by positivity
  have hpow : 2 ^ (i + 1) = 2 * 2 ^ i := pow_succ' 2 i
  have hpow' : 2 ^ (i + 2) = 4 * 2 ^ i := by
    rw [pow_add]
    ring
  have hA_le : 2 ^ i ≤ 2 ^ 29 := Nat.pow_le_pow_right (by norm_num) (by omega)
  have hfull_pow : 2 ^ fullLayers ≤ 2 ^ 30 := Nat.pow_le_pow_right (by norm_num) hfull_le
  have hfull_sub : 2 ^ (fullLayers - i) ≤ 2 ^ fullLayers :=
    Nat.pow_le_pow_right (by norm_num) (by omega)
  have hsub_pos : 0 < 2 ^ (fullLayers - i) := by positivity
  have hp_le : p ≤ p * 2 ^ (i + 1) := Nat.le_mul_of_pos_right p (by positivity)
  have ht_le : t * 2 ^ (numLayers - i) ≤ t * 2 ^ numLayers :=
    Nat.mul_le_mul_left t (Nat.pow_le_pow_right (by norm_num) (by omega))
  have hsub : subU64 (p * 2 ^ (i + 1) + 2 ^ i) 1 = p * 2 ^ (i + 1) + (2 ^ i - 1) := by
    rw [subU64_of_le (by omega) (by omega)]
    omega
  have hlayer := siblingLayer_eq p i (e := 1 - b) 0 (by omega) (show i < 64 by omega)
  rw [Nat.zero_add] at hlayer
  have hmul : p * 2 ^ (i + 1) = 2 * (2 ^ i * p) := by
    rw [hpow]
    ring
  have hid : subU64 (2 * (p * 2 ^ (i + 1) + (2 ^ i - 1)) + (1 - b) + 2) (2 ^ (i + 1)) =
      2 ^ (i + 2) * p + (1 - b) := by
    rw [subU64_of_le (by omega) (by omega), hpow', hmul, hpow]
    have : 4 * 2 ^ i * p = 4 * (2 ^ i * p) := by ring
    omega
  have hdiv : (2 ^ (i + 2) * p + (1 - b)) / 2 ^ (i + 2) = p := by
    rw [Nat.mul_add_div (by positivity), Nat.div_eq_of_lt (by omega), Nat.add_zero]
  have hparity : (2 * (p * 2 ^ (i + 1) + (2 ^ i - 1)) + (1 - b)) % 2 = 1 - b := by omega
  have hindex : subU64 (p * 2 + (1 - b) + 2 ^ fullLayers) (2 ^ (fullLayers - i)) =
      p * 2 + (1 - b) + 2 ^ fullLayers - 2 ^ (fullLayers - i) :=
    subU64_of_le (by omega) (by omega)
  have hsum : (p * 2 + (1 - b) + 2 ^ fullLayers - 2 ^ (fullLayers - i) +
      t * 2 ^ (numLayers - i)) % 2 ^ 64 =
      2 ^ fullLayers - 2 ^ (fullLayers - i) + (t * 2 ^ (numLayers - i) + (2 * p + (1 - b))) := by
    rw [Nat.mod_eq_of_lt (by omega)]
    omega
  rw [siblingIndex, shlInt_of_lt (show i < 31 by omega), Option.bind_eq_bind, Option.bind_some,
    Nat.shiftLeft_eq, hsub]
  dsimp only
  rw [hlayer, digestIndex, shlInt_of_lt (show i + 1 < 31 by omega),
    shlInt_of_lt (show i + 2 < 31 by omega), shlInt_of_lt (show fullLayers < 31 by omega),
    shlInt_of_lt (show fullLayers - i < 31 by omega)]
  simp only [Option.bind_eq_bind, Option.bind_some, Option.pure_def, hid, hdiv, hparity,
    Nat.shiftLeft_eq, hindex, hsum]

/-- The digests beside the nodes above leaf `x`. -/
def pathIndices (logN numLayers x : ℕ) : List ℕ :=
  (List.range numLayers).map fun i => layerOffset logN i + ((x >>> i) ^^^ 1)

/-- The node above `x` in layer `i`, by the subtree of its cap and the number inside. -/
lemma shiftRight_split {numLayers i : ℕ} (hi : i ≤ numLayers) (x : ℕ) :
    x >>> i = (x >>> numLayers) * 2 ^ (numLayers - i) + (x % 2 ^ numLayers) >>> i := by
  obtain ⟨d, rfl⟩ := Nat.exists_eq_add_of_le hi
  rw [Nat.shiftRight_eq_div_pow, Nat.shiftRight_eq_div_pow, Nat.shiftRight_eq_div_pow,
    Nat.add_sub_cancel_left, pow_add, Nat.mod_mul_right_div_self, ← Nat.div_div_eq_div_mul]
  exact (Nat.div_add_mod' _ _).symm

/-- The rounds from `i` on read the path of leaf `x` from layer `i` on. -/
lemma siblingLoop_eq (numLayers capHeight : ℕ) {x : ℕ} (hlog : numLayers + capHeight ≤ 29)
    (hx : x < 2 ^ (numLayers + capHeight)) (n i : ℕ) (hi : i + n = numLayers) :
    siblingLoop numLayers (numLayers + capHeight + 1) (x >>> numLayers) n i
        ((x % 2 ^ numLayers) >>> i) =
      some ((List.range n).map fun j =>
        layerOffset (numLayers + capHeight) (i + j) + ((x >>> (i + j)) ^^^ 1)) := by
  induction n generalizing i with
  | zero => rfl
  | succ n ih =>
    have hx_lt : x < 2 ^ 30 := hx.trans_le (Nat.pow_le_pow_right (by norm_num) (by omega))
    have hup : (x % 2 ^ numLayers) >>> i >>> 1 = (x % 2 ^ numLayers) >>> (i + 1) :=
      (Nat.shiftRight_add _ i 1).symm
    have hsplit : (x % 2 ^ numLayers) >>> i =
        2 * ((x % 2 ^ numLayers) >>> (i + 1)) + (x % 2 ^ numLayers) >>> i % 2 := by
      rw [← hup, Nat.shiftRight_one]
      omega
    have hpair : (x % 2 ^ numLayers) >>> (i + 1) * 2 ^ (i + 1) < 2 ^ 30 := by
      rw [Nat.shiftRight_eq_div_pow]
      exact (Nat.div_mul_le_self _ _).trans_lt ((Nat.mod_le _ _).trans_lt hx_lt)
    have htree : x >>> numLayers * 2 ^ numLayers < 2 ^ 30 := by
      rw [Nat.shiftRight_eq_div_pow]
      exact (Nat.div_mul_le_self _ _).trans_lt hx_lt
    have hindex := siblingIndex_eq (p := (x % 2 ^ numLayers) >>> (i + 1))
      (b := (x % 2 ^ numLayers) >>> i % 2) (show i < numLayers by omega)
      (show numLayers < numLayers + capHeight + 1 by omega) (by omega)
      (Nat.mod_lt _ (by norm_num)) hpair htree
    have hnode : x >>> numLayers * 2 ^ (numLayers - i) +
        (2 * ((x % 2 ^ numLayers) >>> (i + 1)) + (1 - (x % 2 ^ numLayers) >>> i % 2)) =
        (x >>> i) ^^^ 1 := by
      have heven : 2 ^ (numLayers - i) = 2 * 2 ^ (numLayers - i - 1) := by
        rw [← pow_succ']
        congr 1
        omega
      rw [shiftRight_split (show i ≤ numLayers by omega) x, hsplit, heven,
        Nat.mul_left_comm, ← Nat.add_assoc, ← Nat.add_assoc, ← Nat.mul_add,
        xor_one_eq _ _ (Nat.mod_lt _ (by norm_num)), ← hsplit]
    have hrest := ih (i + 1) (by omega)
    rw [siblingLoop, hup, hindex, hrest, hnode]
    simp only [Nat.add_assoc i 1, Nat.add_comm 1, Option.bind_eq_bind, Option.bind_some,
      Option.pure_def, List.range_succ_eq_map, List.map_cons, List.map_map, Nat.add_zero,
      Function.comp_def, layerOffset, Nat.succ_eq_add_one]


/-- The kernels read the digests of the path. -/
lemma siblingIndices_eq {logN capHeight x : ℕ} (hcap : capHeight ≤ logN) (hlog : logN ≤ 29)
    (hx : x < 2 ^ logN) :
    siblingIndices (logN - capHeight) capHeight x =
      some (pathIndices logN (logN - capHeight) x) := by
  have hsum : logN - capHeight + capHeight = logN := by omega
  have hmask : maskInt (logN - capHeight) = some (2 ^ (logN - capHeight) - 1) :=
    if_pos (by omega)
  have hloop := siblingLoop_eq (logN - capHeight) capHeight (x := x) (by omega)
    (by rwa [hsum]) (logN - capHeight) 0 (by omega)
  rw [hsum, Nat.shiftRight_zero] at hloop
  rw [siblingIndices, hmask, Option.bind_eq_bind, Option.bind_some, hsum,
    Nat.and_two_pow_sub_one_eq_mod, hloop]
  simp [pathIndices]


/-! ### Acceptance -/

/-- A tree over `2 ^ logN` leaves in the layout of the device, up to layer `height`. -/
structure StoresTree (hashOrNoop : List F → HashOut F)
    (twoToOne : HashOut F → HashOut F → HashOut F) (leaves : ℕ → List F) (tree : DeviceBuffer F)
    (logN height : ℕ) : Prop where
  len : tree.len = 8 * 2 ^ logN
  leaf : ∀ x < 2 ^ logN, nodeAt tree.cell logN 0 x = hashOrNoop (leaves x)
  isTree : IsTree twoToOne (nodeAt tree.cell logN) logN height

/-- The kernels read the siblings of every leaf, and with these and the cap of the buffer its leaf
is accepted. -/
def SiblingsAccepted (logN capHeight : ℕ) : Prop :=
  ∀ x < 2 ^ logN,
    siblingIndices (logN - capHeight) capHeight x =
      some (pathIndices logN (logN - capHeight) x) ∧
    ∀ (F : Type) [DecidableEq F] (hashOrNoop : List F → HashOut F)
      (twoToOne : HashOut F → HashOut F → HashOut F) (leaves : ℕ → List F) (tree : DeviceBuffer F),
      StoresTree hashOrNoop twoToOne leaves tree logN (logN - capHeight) →
      ∃ indices, siblingIndices (logN - capHeight) capHeight x = some indices ∧
        verifyMerkleProofToCap hashOrNoop twoToOne (leaves x) x (capHashes tree capHeight)
          (indices.map (digestAt tree.cell)) = some (.ok ())

lemma capLen_div (capHeight : ℕ) : capLen capHeight / 4 = 2 ^ capHeight := by
  rw [capLen, Nat.shiftLeft_eq]
  exact Nat.mul_div_cancel_left _ (by norm_num)

/-- The cap is the top layer of the tree, as long as its cells have 32-bit numbers. -/
lemma capHashes_eq {tree : DeviceBuffer F} {logN capHeight : ℕ} (hcap : capHeight ≤ logN)
    (hlen : tree.len = 8 * 2 ^ logN)
    (hfits : 8 * 2 ^ logN - 8 * 2 ^ capHeight + 4 * 2 ^ capHeight ≤ 2 ^ 32) :
    capHashes tree capHeight =
      (List.range (2 ^ capHeight)).map (nodeAt tree.cell logN (logN - capHeight)) := by
  have hoffset : capOffset tree.len capHeight = 8 * 2 ^ logN - 8 * 2 ^ capHeight := by
    rw [capOffset, hlen, Nat.shiftLeft_eq]
  have hlayer : 4 * layerOffset logN (logN - capHeight) = 8 * 2 ^ logN - 8 * 2 ^ capHeight := by
    have hexp : logN + 1 - (logN - capHeight) = capHeight + 1 := by omega
    rw [layerOffset, hexp, pow_succ', pow_succ', Nat.mul_sub]
    omega
  have hpos : 0 < 2 ^ capHeight := by positivity
  rw [capHashes, capLen_div, hoffset]
  apply List.map_congr_left
  intro i hi
  have hi := List.mem_range.mp hi
  funext j
  have hj := j.isLt
  rw [nodeAt, digestAt, Nat.mul_add, hlayer, u32_of_lt (x := 8 * 2 ^ logN - 8 * 2 ^ capHeight)
    (by omega), u32_of_lt (by omega), Nat.add_assoc]

/-- With the right siblings and the right cap the leaf is accepted. -/
lemma StoresTree.verify [DecidableEq F] {hashOrNoop : List F → HashOut F}
    {twoToOne : HashOut F → HashOut F → HashOut F} {leaves : ℕ → List F} {tree : DeviceBuffer F}
    {logN capHeight : ℕ}
    (htree : StoresTree hashOrNoop twoToOne leaves tree logN (logN - capHeight))
    (hcap : capHeight ≤ logN)
    (hfits : 8 * 2 ^ logN - 8 * 2 ^ capHeight + 4 * 2 ^ capHeight ≤ 2 ^ 32) {x : ℕ}
    (hx : x < 2 ^ logN) :
    verifyMerkleProofToCap hashOrNoop twoToOne (leaves x) x (capHashes tree capHeight)
      ((pathIndices logN (logN - capHeight) x).map (digestAt tree.cell)) = some (.ok ()) := by
  have hpath : (pathIndices logN (logN - capHeight) x).map (digestAt tree.cell) =
      (List.range (logN - capHeight)).map
        fun i => nodeAt tree.cell logN i ((x >>> i) ^^^ 1) := by
    rw [pathIndices, List.map_map]
    rfl
  have hroot : x >>> (logN - capHeight) < 2 ^ capHeight := by
    have := shiftRight_lt (i := logN - capHeight) hx
    rwa [Nat.sub_sub_self hcap] at this
  rw [verifyMerkleProofToCap, hpath, ← htree.leaf x hx, htree.isTree.climb_path hx,
    capHashes_eq hcap htree.len hfits]
  simp [hroot]

/-! ### Larger trees -/

/-- From 31 layers on the shift by all layers is undefined. -/
lemma siblingIndices_eq_none {numLayers capHeight : ℕ} (hlayers : 0 < numLayers)
    (hlog : 31 ≤ numLayers + capHeight) (x : ℕ) : siblingIndices numLayers capHeight x = none := by
  have hfull : shlInt (numLayers + capHeight + 1) = none := by
    rw [shlInt, if_neg (by omega), if_neg (by omega)]
  obtain ⟨n, rfl⟩ : ∃ n, numLayers = n + 1 := ⟨numLayers - 1, by omega⟩
  have hdigest : ∀ t sibling layer,
      digestIndex (n + 1) (n + 1 + capHeight + 1) t sibling layer = none := by
    intro t sibling layer
    simp only [digestIndex, hfull, Option.bind_eq_bind, Option.bind_none, Option.bind_fun_none]
  simp only [siblingIndices, siblingLoop, siblingIndex, hdigest, Option.bind_eq_bind,
    Option.bind_none, Option.bind_fun_none]

/-- With `2 ^ 30` leaves the offset of layer 1 is negative. -/
lemma siblingIndices_ne_pathIndices {numLayers capHeight : ℕ} (hlayers : 2 ≤ numLayers)
    (hlog : numLayers + capHeight = 30) :
    siblingIndices numLayers capHeight 0 ≠ some (pathIndices 30 numLayers 0) := by
  obtain ⟨n, rfl⟩ : ∃ n, numLayers = n + 2 := ⟨numLayers - 2, by omega⟩
  have hfirst : siblingIndex (n + 2) 31 0 0 0 0 = some 1 := by
    simp only [siblingIndex, digestIndex, Nat.zero_shiftLeft]
    rfl
  have hsecond : siblingIndex (n + 2) 31 0 1 0 0 = some (2 ^ 64 - 2 ^ 31 - 2 ^ 30 + 1) := by
    simp only [siblingIndex, digestIndex, Nat.zero_shiftLeft]
    rfl
  have hmask : maskInt (n + 2) = some (2 ^ (n + 2) - 1) := if_pos (by omega)
  intro h
  rw [siblingIndices, hmask, Option.bind_eq_bind, Option.bind_some, hlog, Nat.zero_shiftRight,
    Nat.zero_and, siblingLoop, siblingLoop] at h
  simp only [Nat.zero_mod, Nat.zero_shiftRight, hfirst, hsecond, Nat.zero_add,
    Option.bind_eq_bind, Option.bind_some] at h
  cases hrest : siblingLoop (n + 2) (30 + 1) 0 n (1 + 1) 0 with
  | none => simp [hrest] at h
  | some rest =>
    have hhead := congrArg (fun l => l.bind fun l => l[1]?) h
    simp [hrest, pathIndices, layerOffset] at hhead

/-- Leaves with digest zero under nodes with digest one. -/
def zeroLeaves (logN : ℕ) : DeviceBuffer ℕ where
  len := 8 * 2 ^ logN
  cell := fun a => if a < 4 * 2 ^ logN then 0 else 1

lemma storesTree_zeroLeaves (logN height : ℕ) (hheight : height ≤ logN) :
    StoresTree (fun _ _ => 0) (fun _ _ _ => 1) (fun _ => []) (zeroLeaves logN) logN height := by
  refine ⟨rfl, ?_, ?_⟩
  · intro x hx
    funext j
    have hj := j.isLt
    rw [nodeAt, digestAt, layerOffset_zero]
    exact if_pos (by omega)
  · intro i hi k hk
    have hfirst : 2 ^ logN ≤ layerOffset logN (i + 1) := by
      have hpow : 2 ^ (logN + 1 - (i + 1)) ≤ 2 ^ logN :=
        Nat.pow_le_pow_right (by norm_num) (by omega)
      rw [layerOffset, pow_succ']
      omega
    funext j
    exact if_neg (by omega)

/-- With `2 ^ 30` leaves and a cap of half that size the cap is taken from the leaves. -/
lemma not_siblingsAccepted_half : ¬ SiblingsAccepted 30 29 := by
  intro h
  obtain ⟨indices, hindices, hverify⟩ := (h 0 (by norm_num)).2 ℕ (fun _ _ => 0) (fun _ _ _ => 1)
    (fun _ => []) (zeroLeaves 30) (storesTree_zeroLeaves 30 1 (by norm_num))
  have hone : siblingIndices (30 - 29) 29 0 = some [1] := by decide
  rw [hone, Option.some.injEq] at hindices
  subst hindices
  have hcap : (capHashes (zeroLeaves 30) 29)[0]? = some (fun _ => 0) := by
    rw [capHashes, capLen_div, List.getElem?_map, List.getElem?_range (by norm_num),
      Option.map_some, Option.some.injEq]
    funext j
    have hj := j.isLt
    have hoffset : u32 (capOffset (zeroLeaves 30).len 29) = 0 := by decide
    rw [hoffset, u32_of_lt (by omega)]
    exact if_pos (by omega)
  simp only [verifyMerkleProofToCap, List.map_cons, List.map_nil, climb, Nat.zero_shiftRight, hcap,
    Option.bind_eq_bind, Option.bind_some, Option.pure_def, Option.some.injEq] at hverify
  have hne : ((fun _ => 1 : HashOut ℕ)) ≠ fun _ => 0 := by decide
  simp [hne] at hverify

/-- A digest of ones for leaf 0 and of zeros for all others. -/
def oneLeaf (logN : ℕ) : DeviceBuffer ℕ where
  len := 8 * 2 ^ logN
  cell := fun a => if a < 4 then 1 else 0

/-- A cap of `2 ^ 31` digests or more has cells beyond 32 bits. -/
lemma not_siblingsAccepted_leaves {logN : ℕ} (hlog : 31 ≤ logN) :
    ¬ SiblingsAccepted logN logN := by
  intro h
  have hx : 2 ^ 30 < 2 ^ logN := Nat.pow_lt_pow_right (by norm_num) (by omega)
  have htree : StoresTree (fun l _ => if l = [0] then 1 else 0) (fun _ _ _ => 0) (fun x => [x])
      (oneLeaf logN) logN (logN - logN) := by
    refine ⟨rfl, ?_, ?_⟩
    · intro x _
      funext j
      have hj := j.isLt
      rw [nodeAt, digestAt, layerOffset_zero]
      by_cases hx0 : x = 0
      · subst hx0
        simp [oneLeaf, hj]
      · simp [oneLeaf, hx0, show ¬ 4 * x + (j : ℕ) < 4 by omega]
    · intro i hi
      omega
  obtain ⟨indices, hindices, hverify⟩ := (h (2 ^ 30) hx).2 ℕ (fun l _ => if l = [0] then 1 else 0)
    (fun _ _ _ => 0) (fun x => [x]) (oneLeaf logN) htree
  have hnil : siblingIndices (logN - logN) logN (2 ^ 30) = some [] := by
    rw [Nat.sub_self]
    rfl
  rw [hnil, Option.some.injEq] at hindices
  subst hindices
  have hcap : (capHashes (oneLeaf logN) logN)[2 ^ 30]? = some (fun _ => 1) := by
    rw [capHashes, capLen_div, List.getElem?_map, List.getElem?_range hx, Option.map_some,
      Option.some.injEq]
    funext j
    have hj := j.isLt
    have hoffset : capOffset (oneLeaf logN).len logN = 0 := by
      rw [capOffset, Nat.shiftLeft_eq]
      exact Nat.sub_self _
    have hwrap : u32 (u32 0 + (4 * 2 ^ 30 + (j : ℕ))) = j := by
      unfold u32
      omega
    rw [hoffset, hwrap]
    exact if_pos hj
  simp only [verifyMerkleProofToCap, List.map_nil, climb, hcap, Option.bind_eq_bind,
    Option.bind_some, Option.pure_def, Option.some.injEq] at hverify
  have hne : ((fun _ => 0 : HashOut ℕ)) ≠ fun _ => 1 := by decide
  simp [hne] at hverify

/-- The paths of all leaves are read and accepted exactly for trees of at most `2 ^ 29` leaves, and
for `2 ^ 30` leaves without layers below the cap. -/
theorem siblingsAccepted_iff {logN capHeight : ℕ} (hcap : capHeight ≤ logN) :
    SiblingsAccepted logN capHeight ↔ logN ≤ 29 ∨ (logN = 30 ∧ capHeight = 30) := by
  constructor
  · intro h
    by_contra hnot
    push Not at hnot
    obtain ⟨hlarge, hleaves⟩ := hnot
    have hindices := fun x hx => (h x hx).1
    have hpos : 0 < 2 ^ logN := by positivity
    by_cases hlog : logN = 30
    · subst hlog
      by_cases hhalf : capHeight = 29
      · subst hhalf
        exact not_siblingsAccepted_half h
      · have := hleaves rfl
        exact siblingIndices_ne_pathIndices (by omega) (by omega) (hindices 0 hpos)
    · by_cases heq : capHeight = logN
      · subst heq
        exact not_siblingsAccepted_leaves (by omega) h
      · have hzero := hindices 0 hpos
        rw [siblingIndices_eq_none (by omega) (by omega)] at hzero
        exact absurd hzero (by simp)
  · rintro (hlog | ⟨rfl, rfl⟩)
    · intro x hx
      have hindices := siblingIndices_eq hcap hlog hx
      have hpow : 2 ^ logN ≤ 2 ^ 29 := Nat.pow_le_pow_right (by norm_num) hlog
      have hcap_pow : 2 ^ capHeight ≤ 2 ^ logN := Nat.pow_le_pow_right (by norm_num) hcap
      refine ⟨hindices, ?_⟩
      intro F _ hashOrNoop twoToOne leaves tree htree
      exact ⟨_, hindices, htree.verify hcap (by omega) hx⟩
    · intro x hx
      have hindices : siblingIndices (30 - 30) 30 x = some (pathIndices 30 (30 - 30) x) := rfl
      refine ⟨hindices, ?_⟩
      intro F _ hashOrNoop twoToOne leaves tree htree
      exact ⟨_, hindices, htree.verify le_rfl (by norm_num) hx⟩

/-- The trees of an LDE of `2 ^ 15` points with a cap of 16 digests. -/
theorem siblingsAccepted_fifteen : SiblingsAccepted 15 4 :=
  (siblingsAccepted_iff (by norm_num)).mpr (.inl (by norm_num))

/-- In a tree of `2 ^ 30` leaves the kernels do not read the sibling of leaf 0 in layer 1. -/
theorem not_siblingsAccepted_thirty : ¬ SiblingsAccepted 30 4 := by
  intro h
  exact siblingIndices_ne_pathIndices (by norm_num) (by norm_num) (h 0 (by norm_num)).1

end MegaZK
