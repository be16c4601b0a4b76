import MegaZK.Fri.CommittedTrees
import MegaZK.Lib.MerkleLayers
import MegaZK.Poseidon.Words

/-! # Merkle proofs of the host

`MerkleTree::prove` reads the siblings of a leaf from the digests of its subtree. Every proof that
it returns is accepted, and two leaves that are accepted at one index collide. -/

namespace MegaZK

open MerklePath

/-! ### Source -/

namespace MerkleTree

variable {F : Type}

/-- `get`. -/
def get (tree : MerkleTree F) (i : ℕ) : Option (List F) := tree.leaves[i]?

/-- The siblings from layer `i` on, with what is left of the index in the subtree. -/
def proveLayers (digestTree : List (HashOut F)) : ℕ → ℕ → ℕ → Option (List (HashOut F))
  | 0, _, _ => some []
  | layers + 1, i, pairIndex => do
    let parity := pairIndex &&& 1
    let pairIndex := pairIndex >>> 1
    let siblingsIndex := (pairIndex <<< (i + 1)) + 1 <<< i - 1
    let sibling ← digestTree[2 * siblingsIndex + (1 - parity)]?
    let siblings ← proveLayers digestTree layers (i + 1) pairIndex
    return sibling :: siblings

/-- `prove`. -/
def prove (tree : MerkleTree F) (leafIndex : ℕ) : Option (List (HashOut F)) := do
  let capHeight ← log2Strict tree.cap.length
  let logLeaves ← log2Strict tree.leaves.length
  guard (capHeight ≤ logLeaves)
  let numLayers := logLeaves - capHeight
  let treeIndex := leafIndex >>> numLayers
  let treeLen := tree.digests.length >>> capHeight
  let digestTree ← sliceRange tree.digests (treeLen * treeIndex) (treeLen * (treeIndex + 1))
  proveLayers digestTree numLayers 0 (leafIndex &&& (1 <<< numLayers - 1))

end MerkleTree

/-! ### Trees over given leaves -/

lemma log2Strict_eq_some {n k : ℕ} (h : log2Strict n = some k) : n = 2 ^ k := by
  rw [log2Strict] at h
  split_ifs at h with hpow
  obtain rfl := Option.some.inj h
  exact hpow.symm

section Tree

variable (permute : (Fin 12 → GoldilocksField) → Fin 12 → GoldilocksField)

/-- The nodes of the tree over `leaves`. -/
def merkleNode (leaves : List (List GoldilocksField)) : ℕ → ℕ → HashOut GoldilocksField :=
  layer (compress permute) fun x => hashOrNoop permute (leaves.getD x [])

lemma isTree_merkleNode (leaves : List (List GoldilocksField)) (logN height : ℕ) :
    IsTree (compress permute) (merkleNode permute leaves) logN height :=
  isTree_layer _ _ logN height

/-- A tree over a power of two of leaves. -/
lemma MerkleTree.exists_new (leaf : ℕ → List GoldilocksField) {logN capHeight : ℕ}
    (hcap : capHeight ≤ logN) :
    ∃ tree, MerkleTree.new permute ((List.range (2 ^ logN)).map leaf) capHeight = some tree := by
  have hleaf : ∀ x < 2 ^ logN, merkleNode permute ((List.range (2 ^ logN)).map leaf) 0 x =
      hashOrNoop permute (leaf x) := by
    intro x hx
    rw [merkleNode, layer]
    simp [List.getD_eq_getElem?_getD, hx]
  exact ⟨_, MerkleTree.new_map_range hleaf (isTree_merkleNode permute _ logN logN) hcap⟩

variable {permute} {leaves : List (List GoldilocksField)} {capHeight : ℕ}
  {tree : MerkleTree GoldilocksField}

/-- What `MerkleTree::new` checks and builds. -/
lemma MerkleTree.new_eq_some (hnew : MerkleTree.new permute leaves capHeight = some tree) :
    ∃ logN, leaves.length = 2 ^ logN ∧ capHeight ≤ logN ∧ tree =
      { leaves
        digests := (List.range (2 ^ capHeight)).flatMap
          (digestsUnder (merkleNode permute leaves) (logN - capHeight))
        cap := (List.range (2 ^ capHeight)).map
          (merkleNode permute leaves (logN - capHeight)) } := by
  have hnew' := hnew
  rw [MerkleTree.new] at hnew'
  simp only [Option.bind_eq_bind, Option.bind_eq_some_iff, Option.guard_eq_some'] at hnew'
  obtain ⟨logN, hlog, _, hcap, -⟩ := hnew'
  have hlen := log2Strict_eq_some hlog
  have hleaves : leaves = (List.range (2 ^ logN)).map (leaves.getD · []) := by
    apply List.ext_getElem
    · simp [hlen]
    · intro i hi _
      simp [hi]
  refine ⟨logN, hlen, hcap, ?_⟩
  have hspec : MerkleTree.new permute ((List.range (2 ^ logN)).map (leaves.getD · [])) capHeight =
      _ :=
    MerkleTree.new_map_range (fun _ _ => rfl) (isTree_merkleNode permute leaves logN logN) hcap
  rw [← hleaves, hnew] at hspec
  exact Option.some.inj hspec

end Tree

/-! ### Proofs of the leaves -/

section Prove

variable {F : Type}

/-- The subtrees have equally many digests. -/
lemma sliceRange_flatMap_digestsUnder (node : ℕ → ℕ → HashOut F) (n : ℕ) {count k : ℕ}
    (hk : k < count) :
    sliceRange ((List.range count).flatMap (digestsUnder node n)) (2 * (2 ^ n - 1) * k)
      (2 * (2 ^ n - 1) * (k + 1)) = some (digestsUnder node n k) := by
  have hlen : ∀ l : List ℕ, (l.flatMap (digestsUnder node n)).length =
      2 * (2 ^ n - 1) * l.length := by
    intro l
    simp [List.length_flatMap, mul_comm]
  obtain ⟨rest, rfl⟩ := Nat.exists_eq_add_of_lt hk
  have hsplit : (List.range (k + rest + 1)).flatMap (digestsUnder node n) =
      (List.range k).flatMap (digestsUnder node n) ++ (digestsUnder node n k ++
        ((List.range rest).map (k + 1 + ·)).flatMap (digestsUnder node n)) := by
    rw [Nat.add_right_comm, List.range_add, List.range_succ]
    simp
  have hwidth : 2 * (2 ^ n - 1) * (k + 1) - 2 * (2 ^ n - 1) * k = 2 * (2 ^ n - 1) := by
    rw [Nat.mul_succ, Nat.add_sub_cancel_left]
  have hbounds : 2 * (2 ^ n - 1) * k ≤ 2 * (2 ^ n - 1) * (k + 1) ∧ 2 * (2 ^ n - 1) * (k + 1) ≤
      ((List.range (k + rest + 1)).flatMap (digestsUnder node n)).length := by
    refine ⟨Nat.mul_le_mul_left _ (Nat.le_succ k), ?_⟩
    rw [hlen, List.length_range]
    exact Nat.mul_le_mul_left _ (by omega)
  rw [sliceRange, if_pos hbounds, hwidth, hsplit, List.drop_left' (by simp [hlen]),
    List.take_left' (length_digestsUnder node n k)]

/-- The siblings of leaf `k * 2 ^ n + x` of a tree, from layer `i` on. -/
lemma proveLayers_digestsUnder (node : ℕ → ℕ → HashOut F) {n k x : ℕ} (hx : x < 2 ^ n)
    (layers i : ℕ) (hi : i + layers = n) :
    MerkleTree.proveLayers (digestsUnder node n k) layers i (x >>> i) =
      some ((List.range layers).map fun j =>
        node (i + j) (((k * 2 ^ n + x) >>> (i + j)) ^^^ 1)) := by
  induction layers generalizing i with
  | zero => rfl
  | succ layers ih =>
    have hparity : x >>> i &&& 1 = x >>> i % 2 := Nat.and_one_is_mod _
    have hup : x >>> i >>> 1 = x >>> (i + 1) := (Nat.shiftRight_add x i 1).symm
    have hpair : x >>> (i + 1) < 2 ^ (n - (i + 1)) := shiftRight_lt hx
    have hsplit : x >>> i = 2 * (x >>> (i + 1)) + x >>> i % 2 := by
      rw [← hup, Nat.shiftRight_one]
      omega
    have hnode : (k * 2 ^ n + x) >>> i = k * 2 ^ (n - i) + x >>> i := by
      have hpow : k * 2 ^ n = k * 2 ^ (n - i) * 2 ^ i := by
        rw [mul_assoc, ← pow_add]
        congr 3
        omega
      rw [Nat.shiftRight_eq_div_pow, Nat.shiftRight_eq_div_pow, hpow, add_comm,
        Nat.add_mul_div_right _ _ (Nat.two_pow_pos i), add_comm]
    have hsibling : ((k * 2 ^ n + x) >>> i) ^^^ 1 =
        k * 2 ^ (n - i) + (2 * (x >>> (i + 1)) + (1 - x >>> i % 2)) := by
      have heven : 2 ^ (n - i) = 2 * 2 ^ (n - (i + 1)) := by
        rw [← pow_succ']
        congr 1
        omega
      have hxor := xor_one_eq (k * 2 ^ (n - (i + 1)) + x >>> (i + 1)) (x >>> i % 2)
        (Nat.mod_lt _ Nat.two_pos)
      have hleft : 2 * (k * 2 ^ (n - (i + 1)) + x >>> (i + 1)) + x >>> i % 2 =
          (k * 2 ^ n + x) >>> i := by
        rw [hnode, heven]
        conv_rhs => rw [hsplit]
        ring
      rw [hleft] at hxor
      rw [hxor, heven]
      ring
    have hindex : 2 * (x >>> (i + 1) <<< (i + 1) + 1 <<< i - 1) + (1 - x >>> i % 2) =
        2 * (x >>> (i + 1) * 2 ^ (i + 1) + (2 ^ i - 1)) + (1 - x >>> i % 2) := by
      have hpos := Nat.two_pow_pos i
      rw [Nat.shiftLeft_eq, Nat.one_shiftLeft, Nat.add_sub_assoc hpos]
    have hfirst := getElem?_digestsUnder node (by omega : i < n) hpair
      (Nat.lt_succ_of_le (Nat.sub_le 1 (x >>> i % 2))) k
    have hrest := ih (i + 1) (by omega)
    rw [MerkleTree.proveLayers]
    simp only [hparity, hup, hindex, hfirst, hrest, Option.bind_eq_bind, Option.bind_some,
      Option.pure_def, List.range_succ_eq_map, List.map_cons, List.map_map, hsibling, Nat.add_zero]
    congr 2
    apply List.map_congr_left
    intro j _
    have hlayer : i + 1 + j = i + (j + 1) := by omega
    simp only [Function.comp_apply, Nat.succ_eq_add_one, hlayer]

end Prove

section Tree

variable {permute : (Fin 12 → GoldilocksField) → Fin 12 → GoldilocksField}
  {leaves : List (List GoldilocksField)} {capHeight : ℕ} {tree : MerkleTree GoldilocksField}

/-- The proof of a leaf lists the siblings of the nodes above it. -/
lemma MerkleTree.prove_eq {logN x : ℕ} (hlen : leaves.length = 2 ^ logN) (hx : x < 2 ^ logN)
    (hnew : MerkleTree.new permute leaves capHeight = some tree) :
    tree.prove x = some ((List.range (logN - capHeight)).map fun i =>
      merkleNode permute leaves i ((x >>> i) ^^^ 1)) := by
  obtain ⟨logN', hlen', hcap, rfl⟩ := MerkleTree.new_eq_some hnew
  obtain rfl : logN = logN' := Nat.pow_right_injective (le_refl 2) (hlen.symm.trans hlen')
  set n := logN - capHeight with hn
  have htotal : ((List.range (2 ^ capHeight)).flatMap
      (digestsUnder (merkleNode permute leaves) n)).length = 2 * (2 ^ n - 1) * 2 ^ capHeight := by
    simp [List.length_flatMap, mul_comm]
  have htree : x >>> n < 2 ^ capHeight := by
    have := shiftRight_lt (i := n) hx
    rwa [hn, Nat.sub_sub_self hcap] at this
  have hsplit : x = x >>> n * 2 ^ n + x % 2 ^ n := by
    rw [Nat.shiftRight_eq_div_pow, mul_comm]
    exact (Nat.div_add_mod x (2 ^ n)).symm
  have hproof := proveLayers_digestsUnder (merkleNode permute leaves) (k := x >>> n)
    (Nat.mod_lt x (Nat.two_pow_pos n)) n 0 (Nat.zero_add n)
  simp only [Nat.shiftRight_zero, Nat.zero_add, ← hsplit] at hproof
  rw [MerkleTree.prove]
  simp only [List.length_map, List.length_range, log2Strict_two_pow, hlen, htotal, guard,
    if_pos hcap, Option.bind_eq_bind, Option.bind_some, Option.pure_def, ← hn,
    Nat.shiftRight_eq_div_pow _ capHeight, Nat.mul_div_cancel _ (Nat.two_pow_pos capHeight),
    sliceRange_flatMap_digestsUnder _ n htree, Nat.one_shiftLeft, Nat.and_two_pow_sub_one_eq_mod,
    hproof]

/-- The siblings of the nodes above a leaf lead to the cap. -/
lemma MerkleTree.verify_siblings {logN x : ℕ} (hlen : leaves.length = 2 ^ logN) (hx : x < 2 ^ logN)
    (hnew : MerkleTree.new permute leaves capHeight = some tree) :
    verifyMerkleProofToCap (hashOrNoop permute) (compress permute) (leaves.getD x []) x tree.cap
      ((List.range (logN - capHeight)).map fun i =>
        merkleNode permute leaves i ((x >>> i) ^^^ 1)) = some (.ok ()) := by
  obtain ⟨logN', hlen', hcap, htree⟩ := MerkleTree.new_eq_some hnew
  obtain rfl : logN = logN' := Nat.pow_right_injective (le_refl 2) (hlen.symm.trans hlen')
  have hroot : x >>> (logN - capHeight) < 2 ^ capHeight := by
    have := shiftRight_lt (i := logN - capHeight) hx
    rwa [Nat.sub_sub_self hcap] at this
  have hclimb := (isTree_merkleNode permute leaves logN (logN - capHeight)).climb_path hx
  have hfirst : merkleNode permute leaves 0 x = hashOrNoop permute (leaves.getD x []) := rfl
  rw [hfirst] at hclimb
  rw [verifyMerkleProofToCap, hclimb, htree]
  simp [hroot]

/-- A leaf of a tree is one of the leaves that it was built from. -/
lemma MerkleTree.get_eq_some (hnew : MerkleTree.new permute leaves capHeight = some tree)
    {x : ℕ} {leaf : List GoldilocksField} (hleaf : tree.get x = some leaf) :
    ∃ logN, leaves.length = 2 ^ logN ∧ capHeight ≤ logN ∧ x < 2 ^ logN ∧
      leaves.getD x [] = leaf := by
  obtain ⟨logN, hlen, hcap, rfl⟩ := MerkleTree.new_eq_some hnew
  have hget : leaves[x]? = some leaf := hleaf
  refine ⟨logN, hlen, hcap, ?_, ?_⟩
  · rw [← hlen]
    exact (List.getElem?_eq_some_iff.mp hget).1
  · rw [List.getD_eq_getElem?_getD, hget, Option.getD_some]

/-- The proof of every leaf is accepted. -/
theorem MerkleTree.verify_prove (hnew : MerkleTree.new permute leaves capHeight = some tree)
    {x : ℕ} {leaf : List GoldilocksField} (hleaf : tree.get x = some leaf) :
    ∃ siblings, tree.prove x = some siblings ∧
      leaves.length = 2 ^ (capHeight + siblings.length) ∧
      verifyMerkleProofToCap (hashOrNoop permute) (compress permute) leaf x tree.cap siblings =
        some (.ok ()) := by
  obtain ⟨logN, hlen, hcap, hx, rfl⟩ := MerkleTree.get_eq_some hnew hleaf
  refine ⟨_, MerkleTree.prove_eq hlen hx hnew, ?_, MerkleTree.verify_siblings hlen hx hnew⟩
  rw [List.length_map, List.length_range, hlen, Nat.add_sub_cancel' hcap]

/-- The permutation of the host. -/
abbrev hostPermute : (Fin 12 → GoldilocksField) → Fin 12 → GoldilocksField :=
  Poseidon.poseidon Poseidon.hostRoundConstants

lemma exists_pairTree : ∃ tree, MerkleTree.new hostPermute [[1], [2]] 0 = some tree ∧
    tree.get 1 = some [2] := ⟨_, rfl, rfl⟩

theorem MerkleTree.verify_prove_pair : ∃ tree siblings,
    MerkleTree.new hostPermute [[1], [2]] 0 = some tree ∧ tree.prove 1 = some siblings ∧
      verifyMerkleProofToCap (hashOrNoop hostPermute) (compress hostPermute) [2] 1 tree.cap
        siblings = some (.ok ()) := by
  obtain ⟨tree, hnew, hget⟩ := exists_pairTree
  obtain ⟨siblings, hprove, -, hverify⟩ := MerkleTree.verify_prove hnew hget
  exact ⟨tree, siblings, hnew, hprove, hverify⟩

end Tree

/-! ### Collisions -/

section Binding

variable {F : Type} [Zero F] {permute : (Fin 12 → F) → Fin 12 → F}

/-- Leaves of up to four elements are padded, which loses nothing at a fixed length. -/
lemma eq_of_hashOrNoop_eq {leaf leaf' : List F} (hlen : leaf.length = leaf'.length)
    (hshort : leaf.length ≤ 4) (h : hashOrNoop permute leaf = hashOrNoop permute leaf') :
    leaf = leaf' := by
  apply List.ext_getElem hlen
  intro j hj hj'
  have hlane := congrFun h ⟨j, by omega⟩
  simpa only [hashOrNoop, if_pos hshort, hlen ▸ hshort, if_true, List.getD_eq_getElem?_getD,
    List.getElem?_eq_getElem hj, List.getElem?_eq_getElem hj', Option.getD_some] using hlane

/-- What acceptance says about the root that is reached. -/
lemma climb_of_verify [DecidableEq F] {leaf : List F} {x : ℕ} {cap siblings : List (HashOut F)}
    (h : verifyMerkleProofToCap (hashOrNoop permute) (compress permute) leaf x cap siblings =
      some (.ok ())) :
    cap[x >>> siblings.length]? =
      some (climb (compress permute) siblings x (hashOrNoop permute leaf)).2 := by
  rw [verifyMerkleProofToCap] at h
  simp only [Option.bind_eq_bind, Option.bind_eq_some_iff, Option.pure_def, climb_fst] at h
  obtain ⟨root, hroot, hdigest⟩ := h
  split_ifs at hdigest with heq
  · rw [hroot, heq]
  · cases hdigest

/-- Two pairs of digests, hashed at one height on the ways up from two leaves, with one hash. -/
def PathsCollide (permute : (Fin 12 → F) → Fin 12 → F) (x : ℕ) (leaf leaf' : List F)
    (siblings siblings' : List (HashOut F)) : Prop :=
  ∃ (i : ℕ) (p q : HashOut F × HashOut F),
    (climbInputs (compress permute) siblings x (hashOrNoop permute leaf))[i]? = some p ∧
    (climbInputs (compress permute) siblings' x (hashOrNoop permute leaf'))[i]? = some q ∧
    p ≠ q ∧ compress permute p.1 p.2 = compress permute q.1 q.2

/-- Two leaves that one cap accepts at one index are one leaf, or they collide. -/
lemma eq_or_collision_of_verify [DecidableEq F] {leaf leaf' : List F} (hlen : leaf.length = leaf'.length)
    {siblings siblings' : List (HashOut F)} (hpath : siblings.length = siblings'.length)
    {x : ℕ} {cap : List (HashOut F)}
    (h : verifyMerkleProofToCap (hashOrNoop permute) (compress permute) leaf x cap siblings =
      some (.ok ()))
    (h' : verifyMerkleProofToCap (hashOrNoop permute) (compress permute) leaf' x cap siblings' =
      some (.ok ())) :
    (leaf = leaf' ∧ siblings = siblings') ∨
      (leaf ≠ leaf' ∧ 4 < leaf.length ∧ hashOrNoop permute leaf = hashOrNoop permute leaf') ∨
      PathsCollide permute x leaf leaf' siblings siblings' := by
  have hroot := climb_of_verify h
  rw [hpath, climb_of_verify h'] at hroot
  rcases collision_of_climb_eq hpath (Option.some.inj hroot).symm with ⟨hdigest, hsame⟩ | hcollide
  · by_cases heq : leaf = leaf'
    · exact .inl ⟨heq, hsame⟩
    · refine .inr (.inl ⟨heq, ?_, hdigest⟩)
      by_contra hshort
      exact heq (eq_of_hashOrNoop_eq hlen (not_lt.mp hshort) hdigest)
  · exact .inr (.inr hcollide)

end Binding

section Tree

variable {permute : (Fin 12 → GoldilocksField) → Fin 12 → GoldilocksField}
  {leaves : List (List GoldilocksField)} {capHeight : ℕ} {tree : MerkleTree GoldilocksField}

/-- The cap of a tree accepts only what the tree holds and proves, unless hashes collide. -/
theorem MerkleTree.opening_of_verify (hnew : MerkleTree.new permute leaves capHeight = some tree)
    {x : ℕ} {leaf opened : List GoldilocksField} (hleaf : tree.get x = some leaf)
    (hlen : opened.length = leaf.length) {siblings : List (HashOut GoldilocksField)}
    (hpath : leaves.length = 2 ^ (capHeight + siblings.length))
    (h : verifyMerkleProofToCap (hashOrNoop permute) (compress permute) opened x tree.cap
      siblings = some (.ok ())) :
    (opened = leaf ∧ tree.prove x = some siblings) ∨
      (opened ≠ leaf ∧ 4 < leaf.length ∧ hashOrNoop permute opened = hashOrNoop permute leaf) ∨
      ∃ proof, tree.prove x = some proof ∧
        PathsCollide permute x opened leaf siblings proof := by
  obtain ⟨logN, hcount, hcap, hx, rfl⟩ := MerkleTree.get_eq_some hnew hleaf
  have hproof := MerkleTree.prove_eq hcount hx hnew
  have hverify := MerkleTree.verify_siblings hcount hx hnew
  set proof := (List.range (logN - capHeight)).map fun i =>
    merkleNode permute leaves i ((x >>> i) ^^^ 1) with hdef
  have hsame : siblings.length = proof.length := by
    have hexp := Nat.pow_right_injective (le_refl 2) (hpath.symm.trans hcount)
    have hlength : proof.length = logN - capHeight := by simp [hdef]
    omega
  rcases eq_or_collision_of_verify hlen hsame h hverify with ⟨heq, rfl⟩ | ⟨hne, hlong, hhash⟩ |
    hcollide
  · exact .inl ⟨heq, hproof⟩
  · exact .inr (.inl ⟨hne, hlen ▸ hlong, hhash⟩)
  · exact .inr (.inr ⟨proof, hproof, hcollide⟩)

theorem MerkleTree.opening_of_verify_pair : ∃ tree siblings, ∃ leaf : List GoldilocksField,
    MerkleTree.new hostPermute [[1], [2]] 0 = some tree ∧ tree.get 1 = some leaf ∧
      ((leaf = leaf ∧ tree.prove 1 = some siblings) ∨
        (leaf ≠ leaf ∧ 4 < leaf.length ∧ hashOrNoop hostPermute leaf = hashOrNoop hostPermute leaf) ∨
        ∃ proof, tree.prove 1 = some proof ∧
          PathsCollide hostPermute 1 leaf leaf siblings proof) := by
  obtain ⟨tree, hnew, hget⟩ := exists_pairTree
  obtain ⟨logN, hlen, hcap, hx, hleaf⟩ := MerkleTree.get_eq_some hnew hget
  have hverify := MerkleTree.verify_siblings hlen hx hnew
  rw [hleaf] at hverify
  have hpath : [[1], [2]].length = 2 ^ (0 + ((List.range (logN - 0)).map fun i =>
      merkleNode hostPermute [[1], [2]] i ((1 >>> i) ^^^ 1)).length) := by
    rw [List.length_map, List.length_range, Nat.zero_add, Nat.sub_zero]
    exact hlen
  exact ⟨tree, _, [2], hnew, hget, MerkleTree.opening_of_verify hnew hget rfl hpath hverify⟩

end Tree

end MegaZK
