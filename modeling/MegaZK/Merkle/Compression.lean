import MegaZK.Merkle.Proofs

/-! # Compressed Merkle proofs

`compress_merkle_proofs` leaves out what other proofs of the same tree imply, proof after proof.
`decompress_merkle_proofs` reads the rest layer after layer, and finds it in the same order. -/

namespace MegaZK

open MerklePath

variable {D : Type}

/-! ### Source -/

/-- `known[k] = true`, which panics outside of the vector. -/
def markKnown (size k : ℕ) (known : ℕ → Bool) : Option (ℕ → Bool) :=
  if k < size then some (Function.update known k true) else none

/-- The loop over the siblings of one proof: those that are not known are kept. -/
def compressPath (size : ℕ) : List D → ℕ → (ℕ → Bool) → Option (List D × (ℕ → Bool))
  | [], _, known => some ([], known)
  | sibling :: rest, index, known => do
    let siblingIndex := index ^^^ 1
    guard (siblingIndex < size)
    let kept := if known siblingIndex then [] else [sibling]
    let known ← markKnown size siblingIndex known
    let index := index >>> 1
    let known ← markKnown size index known
    let (siblings, known) ← compressPath size rest index known
    return (kept ++ siblings, known)

/-- The loop over the proofs, with the leaves numbered from the root on. -/
def compressPaths (size : ℕ) : List (ℕ × List D) → (ℕ → Bool) → Option (List (List D))
  | [], _ => some []
  | (index, siblings) :: rest, known => do
    let (compressed, known) ← compressPath size siblings index known
    let proofs ← compressPaths size rest known
    return compressed :: proofs

/-- The paths from the leaves to the cap are known. -/
def knownPaths (size layers : ℕ) (leaves : List ℕ) : Option (ℕ → Bool) :=
  leaves.foldlM
    (fun known i => (List.range layers).foldlM (fun known j => markKnown size (i >>> j) known)
      known)
    fun _ => false

/-- `compress_merkle_proofs`. -/
def compressMerkleProofs (capHeight : ℕ) (indices : List ℕ) (proofs : List (List D)) :
    Option (List (List D)) := do
  let first ← proofs.head?
  let height := capHeight + first.length
  let numLeaves := 1 <<< height
  let size := 2 * numLeaves
  let known ← knownPaths size (height - capHeight) (indices.map (· + numLeaves))
  compressPaths size ((indices.map (· + numLeaves)).zip proofs) known

/-- The pass over the proofs at one layer: the sibling is one that was seen, or the next one that
is left of the proof. -/
def decompressLayer (twoToOne : D → D → D) (layer : ℕ) :
    List (ℕ × List D) → (ℕ → Option D) → Option ((ℕ → Option D) × List (ℕ × List D))
  | [], seen => some (seen, [])
  | (leaf, siblings) :: rest, seen => do
    let index := leaf >>> layer
    let current ← seen index
    let (sibling, siblings) ← match seen (index ^^^ 1) with
      | some sibling => some (sibling, siblings)
      | none => siblings.head?.map fun sibling => (sibling, siblings.tail)
    let seen := Function.update seen (index ^^^ 1) (some sibling)
    let parent := if index % 2 = 0 then twoToOne current sibling else twoToOne sibling current
    let (seen, rest) ← decompressLayer twoToOne layer rest
      (Function.update seen (index >>> 1) (some parent))
    return (seen, (leaf, siblings) :: rest)

/-- The passes over `layers` layers from `layer` on. -/
def decompressLayers (twoToOne : D → D → D) :
    ℕ → ℕ → List (ℕ × List D) → (ℕ → Option D) → Option (ℕ → Option D)
  | 0, _, _, seen => some seen
  | layers + 1, layer, proofs, seen => do
    let (seen, proofs) ← decompressLayer twoToOne layer proofs seen
    decompressLayers twoToOne layers (layer + 1) proofs seen

/-- The siblings on the way up, as they were seen. -/
def decompressPath (seen : ℕ → Option D) : ℕ → ℕ → Option (List D)
  | 0, _ => some []
  | layers + 1, index => do
    let sibling ← seen (index ^^^ 1)
    let siblings ← decompressPath seen layers (index >>> 1)
    return sibling :: siblings

/-- The digests of the leaves. -/
def seenLeaves {F : Type} (hashOrNoop : List F → D) (leaves : List (ℕ × List F)) : ℕ → Option D :=
  leaves.foldl (fun seen l => Function.update seen l.1 (some (hashOrNoop l.2))) fun _ => none

/-- `decompress_merkle_proofs`. -/
def decompressMerkleProofs {F : Type} (hashOrNoop : List F → D) (twoToOne : D → D → D)
    (leavesData : List (List F)) (leavesIndices : List ℕ) (compressedProofs : List (List D))
    (height capHeight : ℕ) : Option (List (List D)) := do
  guard (capHeight ≤ height)
  let numLeaves := 1 <<< height
  let leaves := leavesIndices.map (· + numLeaves)
  let seen ← decompressLayers twoToOne (height - capHeight) 0 (leaves.zip compressedProofs)
    (seenLeaves hashOrNoop (leaves.zip leavesData))
  leaves.mapM (decompressPath seen (height - capHeight))

/-! ### Nodes numbered from the root on -/

/-- The nodes of layer `j` of a tree of `height` layers over the leaves. -/
def InLayer (height j k : ℕ) : Prop := 2 ^ (height - j) ≤ k ∧ k < 2 ^ (height - j + 1)

namespace InLayer

variable {height j k : ℕ}

lemma eq {j' : ℕ} (h : InLayer height j k) (h' : InLayer height j' k) (hj : j ≤ height)
    (hj' : j' ≤ height) : j = j' := by
  have hne : k ≠ 0 := (lt_of_lt_of_le (Nat.two_pow_pos _) h.1).ne'
  have hlog := (Nat.log2_eq_iff hne).mpr h
  have hlog' := (Nat.log2_eq_iff hne).mpr h'
  omega

lemma parent (h : InLayer height j k) (hj : j < height) : InLayer height (j + 1) (k >>> 1) := by
  obtain ⟨n, hn⟩ : ∃ n, height - j = n + 1 := ⟨height - (j + 1), by omega⟩
  have hn' : height - (j + 1) = n := by omega
  simp only [InLayer, hn, hn', pow_succ, Nat.shiftRight_one] at h ⊢
  omega

lemma ancestor (h : InLayer height 0 k) (hj : j ≤ height) : InLayer height j (k >>> j) := by
  induction j with
  | zero => exact h
  | succ j ih =>
    rw [Nat.shiftRight_add]
    exact (ih (by omega)).parent hj

lemma sibling (h : InLayer height j k) (hj : j < height) : InLayer height j (k ^^^ 1) := by
  have hxor := xor_one_eq (k / 2) (k % 2) (Nat.mod_lt _ Nat.two_pos)
  rw [Nat.div_add_mod] at hxor
  obtain ⟨n, hn⟩ : ∃ n, height - j = n + 1 := ⟨height - (j + 1), by omega⟩
  simp only [InLayer, hn, pow_succ] at h ⊢
  omega

lemma lt_size (h : InLayer height j k) : k < 2 * 2 ^ height := by
  rw [← pow_succ']
  exact h.2.trans_le (Nat.pow_le_pow_right Nat.two_pos (by omega))

end InLayer

/-! ### What is kept -/

section Kept

variable (val : ℕ → D) (leaves before : List ℕ) (leaf : ℕ)

/-- A sibling that is on no path, and beside no path of an earlier proof. -/
def Kept (j : ℕ) : Prop :=
  (∀ l ∈ leaves, (leaf >>> j) ^^^ 1 ≠ l >>> j) ∧
    ∀ l ∈ before, (leaf >>> j) ^^^ 1 ≠ (l >>> j) ^^^ 1

instance (j : ℕ) : Decidable (Kept leaves before leaf j) :=
  inferInstanceAs (Decidable (_ ∧ _))

/-- The siblings of `layers` layers from `j` on. -/
def siblingsFrom : ℕ → ℕ → List D
  | 0, _ => []
  | layers + 1, j => val ((leaf >>> j) ^^^ 1) :: siblingsFrom layers (j + 1)

/-- Those that are kept. -/
def keptFrom : ℕ → ℕ → List D
  | 0, _ => []
  | layers + 1, j =>
    (if Kept leaves before leaf j then [val ((leaf >>> j) ^^^ 1)] else []) ++
      keptFrom layers (j + 1)

/-- What is left of the proofs of `rest` at layer `j`, after those of `before`. -/
def keptProofs (layers j : ℕ) : List ℕ → List ℕ → List (ℕ × List D)
  | _, [] => []
  | before, leaf :: rest =>
    (leaf, keptFrom val leaves before leaf layers j) :: keptProofs layers j (before ++ [leaf]) rest

/-- Proofs of `rest` that start, at layer `j`, with what is kept after those of `before`. -/
inductive Suffices (layers j : ℕ) : List ℕ → List ℕ → List (ℕ × List D) → Prop
  | nil {before : List ℕ} : Suffices layers j before [] []
  | cons {before rest : List ℕ} {leaf : ℕ} {siblings : List D} {proofs : List (ℕ × List D)}
      (kept : keptFrom val leaves before leaf layers j <+: siblings)
      (others : Suffices layers j (before ++ [leaf]) rest proofs) :
      Suffices layers j before (leaf :: rest) ((leaf, siblings) :: proofs)

variable {leaves before leaf} in
/-- Beside its own path, an earlier proof of a leaf leaves nothing to keep. -/
lemma keptFrom_of_mem (h : leaf ∈ before) (layers j : ℕ) :
    keptFrom val leaves before leaf layers j = [] := by
  induction layers generalizing j with
  | zero => rfl
  | succ layers ih =>
    rw [keptFrom, if_neg fun hkept => hkept.2 leaf h rfl, ih, List.nil_append]

lemma suffices_keptProofs (layers j : ℕ) (before rest : List ℕ) :
    Suffices val leaves layers j before rest (keptProofs val leaves layers j before rest) := by
  induction rest generalizing before with
  | nil => exact .nil
  | cons leaf rest ih => exact .cons List.prefix_rfl (ih _)

end Kept

/-! ### Compression -/

section Compress

variable (val : ℕ → D) {leaves : List ℕ} {height layers : ℕ}

/-- The paths, the siblings of the proofs before, and those of this one below layer `j` are
known. -/
def KnownAt (leaves : List ℕ) (height layers : ℕ) (before : List ℕ) (leaf j : ℕ)
    (known : ℕ → Bool) : Prop :=
  ∀ i < layers, ∀ k, InLayer height i k →
    (known k = true ↔ (∃ l ∈ leaves, k = l >>> i) ∨ (∃ l ∈ before, k = (l >>> i) ^^^ 1) ∨
      i < j ∧ k = (leaf >>> i) ^^^ 1)

lemma markKnown_of_lt {size k : ℕ} (hk : k < size) (known : ℕ → Bool) :
    markKnown size k known = some (Function.update known k true) := if_pos hk

variable (hleaves : ∀ l ∈ leaves, InLayer height 0 l) (hlayers : layers ≤ height)

include hleaves hlayers

/-- One proof is compressed to its siblings that are kept. -/
lemma compressPath_spec {before : List ℕ} {leaf : ℕ} (hmem : leaf ∈ leaves) (n j : ℕ)
    (hj : j + n = layers) {known : ℕ → Bool}
    (hknown : KnownAt leaves height layers before leaf j known) :
    ∃ known', compressPath (2 * 2 ^ height) (siblingsFrom val leaf n j) (leaf >>> j) known =
        some (keptFrom val leaves before leaf n j, known') ∧
      KnownAt leaves height layers before leaf layers known' := by
  induction n generalizing j known with
  | zero =>
    obtain rfl : j = layers := hj
    exact ⟨known, rfl, hknown⟩
  | succ n ih =>
    have hnode := (hleaves leaf hmem).ancestor (by omega : j ≤ height)
    have hsibling := hnode.sibling (by omega)
    have hup : leaf >>> j >>> 1 = leaf >>> (j + 1) := (Nat.shiftRight_add leaf j 1).symm
    have hparent := (hleaves leaf hmem).ancestor (by omega : j + 1 ≤ height)
    have hkept : Kept leaves before leaf j ↔ ¬known (leaf >>> j ^^^ 1) = true := by
      rw [hknown j (by omega) _ hsibling, Kept]
      simp only [not_or, not_exists, not_and, lt_irrefl, not_false_eq_true, and_true,
        ne_eq]
    have hnext : KnownAt leaves height layers before leaf (j + 1)
        (Function.update (Function.update known (leaf >>> j ^^^ 1) true) (leaf >>> (j + 1))
          true) := by
      intro i hi k hk
      rw [Function.update_apply, Function.update_apply]
      by_cases hpath : k = leaf >>> (j + 1)
      · -- the parent is on a path
        have hij : i = j + 1 := hk.eq (hpath ▸ hparent) (by omega) (by omega)
        rw [if_pos hpath]
        exact iff_of_true rfl (.inl ⟨leaf, hmem, hij ▸ hpath⟩)
      · rw [if_neg hpath]
        by_cases hside : k = leaf >>> j ^^^ 1
        · have hij : i = j := hk.eq (hside ▸ hsibling) (by omega) (by omega)
          rw [if_pos hside]
          exact iff_of_true rfl (.inr (.inr ⟨by omega, hij ▸ hside⟩))
        · rw [if_neg hside, hknown i hi k hk]
          have hbelow : (i < j ∧ k = leaf >>> i ^^^ 1) ↔ (i < j + 1 ∧ k = leaf >>> i ^^^ 1) := by
            constructor
            · rintro ⟨hlt, heq⟩
              exact ⟨by omega, heq⟩
            · rintro ⟨hlt, heq⟩
              have hne : i ≠ j := fun h => hside (h ▸ heq)
              exact ⟨by omega, heq⟩
          rw [hbelow]
    obtain ⟨known', hrest, hdone⟩ := ih (j + 1) (by omega) hnext
    refine ⟨known', ?_, hdone⟩
    rw [siblingsFrom, compressPath, keptFrom]
    simp only [guard, if_pos hsibling.lt_size, markKnown_of_lt hsibling.lt_size, hup,
      markKnown_of_lt hparent.lt_size, hrest, Option.bind_eq_bind, Option.bind_some,
      Option.pure_def, hkept, ite_not]

/-- The proofs of a tree are compressed to the siblings that are kept. -/
lemma compressPaths_spec {before rest : List ℕ} (hmem : ∀ l ∈ rest, l ∈ leaves)
    {known : ℕ → Bool} (hknown : KnownAt leaves height layers before 0 0 known) :
    compressPaths (2 * 2 ^ height) (rest.map fun l => (l, siblingsFrom val l layers 0)) known =
      some ((keptProofs val leaves layers 0 before rest).map (·.2)) := by
  induction rest generalizing before known with
  | nil => rfl
  | cons leaf rest ih =>
    have hstart : KnownAt leaves height layers before leaf 0 known := by
      intro i hi k hk
      rw [hknown i hi k hk]
      simp
    obtain ⟨known', hpath, hdone⟩ := compressPath_spec val hleaves hlayers
      (hmem leaf List.mem_cons_self) layers 0 (Nat.zero_add layers) hstart
    have hnext : KnownAt leaves height layers (before ++ [leaf]) 0 0 known' := by
      intro i hi k hk
      rw [hdone i hi k hk]
      simp [hi, or_and_right, exists_or]
    have hrest := ih (fun l hl => hmem l (List.mem_cons_of_mem leaf hl)) hnext
    rw [Nat.shiftRight_zero] at hpath
    rw [List.map_cons, compressPaths, hpath, keptProofs]
    simp only [Option.bind_eq_bind, Option.bind_some, hrest, Option.pure_def, List.map_cons]

/-- The paths of the first leaves, and the nodes of this one below layer `n`. -/
lemma knownPath_spec {leaf : ℕ} (hmem : leaf ∈ leaves) (n : ℕ) (hn : n ≤ layers)
    (known : ℕ → Bool) :
    ∃ known', (List.range n).foldlM (fun known j => markKnown (2 * 2 ^ height) (leaf >>> j) known)
        known = some known' ∧
      ∀ k, known' k = true ↔ known k = true ∨ ∃ j < n, k = leaf >>> j := by
  induction n with
  | zero => exact ⟨known, rfl, by simp⟩
  | succ n ih =>
    obtain ⟨known', hfold, hspec⟩ := ih (by omega)
    have hlt := ((hleaves leaf hmem).ancestor (by omega : n ≤ height)).lt_size
    refine ⟨Function.update known' (leaf >>> n) true, ?_, ?_⟩
    · rw [List.range_succ, List.foldlM_append, hfold]
      simp [markKnown_of_lt hlt]
    · intro k
      rw [Function.update_apply]
      split_ifs with heq
      · exact iff_of_true rfl (.inr ⟨n, by omega, heq⟩)
      · rw [hspec]
        refine or_congr_right ⟨?_, ?_⟩
        · rintro ⟨j, hj, hk⟩
          exact ⟨j, by omega, hk⟩
        · rintro ⟨j, hj, hk⟩
          have hne : j ≠ n := fun h => heq (h ▸ hk)
          exact ⟨j, by omega, hk⟩

lemma knownPaths_spec : ∃ known, knownPaths (2 * 2 ^ height) layers leaves = some known ∧
    KnownAt leaves height layers [] 0 0 known := by
  have hfold : ∀ rest : List ℕ, (∀ l ∈ rest, l ∈ leaves) → ∀ known : ℕ → Bool,
      ∃ known', rest.foldlM (fun known i => (List.range layers).foldlM
          (fun known j => markKnown (2 * 2 ^ height) (i >>> j) known) known) known = some known' ∧
        ∀ k, known' k = true ↔ known k = true ∨ ∃ l ∈ rest, ∃ j < layers, k = l >>> j := by
    intro rest
    induction rest with
    | nil => exact fun _ known => ⟨known, rfl, by simp⟩
    | cons leaf rest ih =>
      intro hmem known
      obtain ⟨known₁, hfirst, hspec₁⟩ := knownPath_spec hleaves hlayers
        (hmem leaf List.mem_cons_self) layers le_rfl known
      obtain ⟨known₂, hrest, hspec₂⟩ := ih (fun l hl => hmem l (List.mem_cons_of_mem leaf hl)) known₁
      refine ⟨known₂, ?_, ?_⟩
      · rw [List.foldlM_cons, hfirst]
        exact hrest
      · intro k
        rw [hspec₂, hspec₁]
        simp [or_assoc]
  obtain ⟨known, hknown, hspec⟩ := hfold leaves (fun _ hl => hl) fun _ => false
  refine ⟨known, hknown, ?_⟩
  intro i hi k hk
  rw [hspec]
  simp only [Bool.false_eq_true, false_or, List.not_mem_nil, false_and, exists_false,
    Nat.not_lt_zero, or_false]
  constructor
  · rintro ⟨l, hl, j, hj, rfl⟩
    obtain rfl := hk.eq ((hleaves l hl).ancestor (by omega : j ≤ height)) (by omega) (by omega)
    exact ⟨l, hl, rfl⟩
  · rintro ⟨l, hl, rfl⟩
    exact ⟨l, hl, i, hi, rfl⟩

end Compress

/-! ### Decompression -/

section Decompress

variable {twoToOne : D → D → D} {val : ℕ → D} {leaves : List ℕ} {height layers : ℕ}

/-- What was seen at layer `j` after the proofs of `before`: only nodes of the tree, those of the
paths and the siblings of `before` in layer `j`, the paths of `before` in the next layer, and
nothing above. -/
structure SeenAt (val : ℕ → D) (leaves : List ℕ) (height : ℕ) (before : List ℕ) (j : ℕ)
    (seen : ℕ → Option D) : Prop where
  value : ∀ k v, seen k = some v → v = val k
  current : ∀ k, InLayer height j k → (seen k ≠ none ↔
    (∃ l ∈ leaves, k = l >>> j) ∨ ∃ l ∈ before, k = (l >>> j) ^^^ 1)
  next : j < height → ∀ k, InLayer height (j + 1) k →
    (seen k ≠ none ↔ ∃ l ∈ before, k = l >>> (j + 1))
  above : ∀ i k, j + 1 < i → i ≤ height → InLayer height i k → seen k = none

lemma SeenAt.eq_some {before : List ℕ} {j k : ℕ} {seen : ℕ → Option D}
    (h : SeenAt val leaves height before j seen) (hk : seen k ≠ none) : seen k = some (val k) := by
  obtain ⟨v, hv⟩ := Option.ne_none_iff_exists'.mp hk
  rw [hv, h.value k v hv]

variable (hleaves : ∀ l ∈ leaves, InLayer height 0 l) (hlayers : layers ≤ height)

include hleaves hlayers

/-- What one proof adds at layer `j`. -/
lemma SeenAt.step {before : List ℕ} {leaf j : ℕ} {seen : ℕ → Option D} (hmem : leaf ∈ leaves)
    (hj : j < layers) (h : SeenAt val leaves height before j seen) :
    SeenAt val leaves height (before ++ [leaf]) j
      (Function.update (Function.update seen (leaf >>> j ^^^ 1) (some (val (leaf >>> j ^^^ 1))))
        (leaf >>> (j + 1)) (some (val (leaf >>> (j + 1))))) := by
  have hsibling := ((hleaves leaf hmem).ancestor (by omega : j ≤ height)).sibling (by omega)
  have hparent := (hleaves leaf hmem).ancestor (by omega : j + 1 ≤ height)
  refine ⟨?_, ?_, ?_, ?_⟩
  · intro k v hv
    rw [Function.update_apply, Function.update_apply] at hv
    split_ifs at hv with hk hk'
    · rw [hk]
      exact (Option.some.inj hv).symm
    · rw [hk']
      exact (Option.some.inj hv).symm
    · exact h.value k v hv
  · intro k hk
    have hne : k ≠ leaf >>> (j + 1) := by
      rintro rfl
      have := hk.eq hparent (by omega) (by omega)
      omega
    rw [Function.update_apply, if_neg hne, Function.update_apply]
    split_ifs with hside
    · exact iff_of_true (Option.some_ne_none _) (.inr ⟨leaf, by simp, hside⟩)
    · rw [h.current k hk]
      simp [hside]
  · intro hlt k hk
    have hne : k ≠ leaf >>> j ^^^ 1 := by
      rintro rfl
      have := hk.eq hsibling (by omega) (by omega)
      omega
    rw [Function.update_apply, Function.update_apply, if_neg hne]
    split_ifs with hpath
    · exact iff_of_true (Option.some_ne_none _) ⟨leaf, by simp, hpath⟩
    · rw [h.next hlt k hk]
      simp [hpath]
  · intro i k hi hle hk
    have hne : k ≠ leaf >>> j ^^^ 1 := by
      rintro rfl
      have := hk.eq hsibling hle (by omega)
      omega
    have hne' : k ≠ leaf >>> (j + 1) := by
      rintro rfl
      have := hk.eq hparent hle (by omega)
      omega
    rw [Function.update_apply, if_neg hne', Function.update_apply, if_neg hne]
    exact h.above i k hi hle hk

variable (hval : ∀ l ∈ leaves, ∀ j < layers, val (l >>> (j + 1)) =
    if l >>> j % 2 = 0 then twoToOne (val (l >>> j)) (val (l >>> j ^^^ 1))
    else twoToOne (val (l >>> j ^^^ 1)) (val (l >>> j)))

include hval

/-- The pass over the proofs takes what they keep of layer `j`, and forgets nothing. -/
lemma decompressLayer_spec {n j : ℕ} (hj : j + (n + 1) = layers) {before rest : List ℕ}
    {proofs : List (ℕ × List D)} (hproofs : Suffices val leaves (n + 1) j before rest proofs)
    (hmem : ∀ l ∈ rest, l ∈ leaves) {seen : ℕ → Option D}
    (h : SeenAt val leaves height before j seen) :
    ∃ seen' proofs', decompressLayer twoToOne j proofs seen = some (seen', proofs') ∧
      Suffices val leaves n (j + 1) before rest proofs' ∧
      SeenAt val leaves height (before ++ rest) j seen' ∧ ∀ k, seen k ≠ none → seen' k ≠ none := by
  induction hproofs generalizing seen with
  | nil => exact ⟨seen, [], rfl, .nil, by rwa [List.append_nil], fun _ hk => hk⟩
  | @cons before rest leaf siblings proofs hkept_proof hothers ih =>
    have hleaf := hmem leaf List.mem_cons_self
    have hnode := (hleaves leaf hleaf).ancestor (by omega : j ≤ height)
    have hsibling := hnode.sibling (by omega)
    have hup : leaf >>> j >>> 1 = leaf >>> (j + 1) := (Nat.shiftRight_add leaf j 1).symm
    have hcurrent : seen (leaf >>> j) = some (val (leaf >>> j)) :=
      h.eq_some ((h.current _ hnode).mpr (.inl ⟨leaf, hleaf, rfl⟩))
    have hkept : Kept leaves before leaf j ↔ seen (leaf >>> j ^^^ 1) = none := by
      rw [← not_iff_not, ← ne_eq (seen _), h.current _ hsibling, Kept]
      simp only [not_and_or, not_forall, not_not, exists_prop, ne_eq]
    have hstep := h.step hleaves hlayers hleaf (by omega)
    obtain ⟨seen', proofs', hrest, hleft, hdone, hgrow⟩ :=
      ih (fun l hl => hmem l (List.mem_cons_of_mem leaf hl)) hstep
    have hforgets : ∀ k, seen k ≠ none → seen' k ≠ none := by
      intro k hk
      apply hgrow
      rw [Function.update_apply, Function.update_apply]
      split_ifs
      · exact Option.some_ne_none _
      · exact Option.some_ne_none _
      · exact hk
    rw [List.append_assoc] at hdone
    rw [keptFrom] at hkept_proof
    rw [decompressLayer]
    simp only [hcurrent, Option.bind_eq_bind, Option.bind_some, hup]
    by_cases hnone : seen (leaf >>> j ^^^ 1) = none
    · -- the sibling is the next one of the proof
      rw [if_pos (hkept.mpr hnone), List.singleton_append] at hkept_proof
      obtain ⟨extra, rfl⟩ := hkept_proof
      refine ⟨seen', _, ?_, .cons (List.prefix_append _ extra) hleft, hdone, hforgets⟩
      rw [hnone]
      simp only [List.cons_append, List.head?_cons, Option.map_some, List.tail_cons,
        Option.bind_some, ← hval leaf hleaf j (by omega), hrest, Option.pure_def]
    · rw [if_neg (fun hk => hnone (hkept.mp hk)), List.nil_append] at hkept_proof
      refine ⟨seen', _, ?_, .cons hkept_proof hleft, hdone, hforgets⟩
      rw [h.eq_some hnone]
      simp only [Option.bind_some, ← hval leaf hleaf j (by omega), hrest, Option.pure_def]

/-- The passes from layer `j` on find the siblings of all proofs. -/
lemma decompressLayers_spec (n j : ℕ) (hj : j + n = layers) {proofs : List (ℕ × List D)}
    (hproofs : Suffices val leaves n j [] leaves proofs) {seen : ℕ → Option D}
    (h : SeenAt val leaves height [] j seen) :
    ∃ seen', decompressLayers twoToOne n j proofs seen = some seen' ∧
      (∀ k v, seen' k = some v → v = val k) ∧ (∀ k, seen k ≠ none → seen' k ≠ none) ∧
      ∀ l ∈ leaves, ∀ i, j ≤ i → i < layers → seen' (l >>> i ^^^ 1) ≠ none := by
  induction n generalizing j proofs seen with
  | zero =>
    refine ⟨seen, rfl, h.value, fun _ hk => hk, ?_⟩
    intro l _ i hi hlt
    omega
  | succ n ih =>
    obtain ⟨seen₁, proofs₁, hlayer, hleft, hdone, hgrow₁⟩ :=
      decompressLayer_spec hleaves hlayers hval hj hproofs (fun _ hl => hl) h
    rw [List.nil_append] at hdone
    have hnext : SeenAt val leaves height [] (j + 1) seen₁ := by
      refine ⟨hdone.value, ?_, ?_, ?_⟩
      · intro k hk
        rw [hdone.next (by omega) k hk]
        simp
      · intro hlt k hk
        simp [hdone.above (j + 2) k (by omega) hlt hk]
      · intro i k hi hle hk
        exact hdone.above i k (by omega) hle hk
    obtain ⟨seen₂, hlayers', hvalue, hgrow₂, hfound⟩ := ih (j + 1) (by omega) hleft hnext
    refine ⟨seen₂, ?_, hvalue, fun k hk => hgrow₂ k (hgrow₁ k hk), ?_⟩
    · rw [decompressLayers, hlayer]
      exact hlayers'
    · intro l hl i hi hlt
      rcases hi.eq_or_lt with rfl | hi
      · apply hgrow₂
        have hnode := ((hleaves l hl).ancestor (by omega : j ≤ height)).sibling (by omega)
        exact (hdone.current _ hnode).mpr (.inr ⟨l, hl, rfl⟩)
      · exact hfound l hl i hi hlt

end Decompress

/-- A path that was seen is found. -/
lemma decompressPath_eq {val : ℕ → D} {seen : ℕ → Option D} {leaf : ℕ} (n j : ℕ)
    (hseen : ∀ i, j ≤ i → i < j + n → seen (leaf >>> i ^^^ 1) = some (val (leaf >>> i ^^^ 1))) :
    decompressPath seen n (leaf >>> j) = some (siblingsFrom val leaf n j) := by
  induction n generalizing j with
  | zero => rfl
  | succ n ih =>
    have hup : leaf >>> j >>> 1 = leaf >>> (j + 1) := (Nat.shiftRight_add leaf j 1).symm
    have hrest := ih (j + 1) fun i hi hlt => hseen i (by omega) (by omega)
    rw [decompressPath, hseen j le_rfl (by omega), hup]
    simp only [Option.bind_eq_bind, Option.bind_some, hrest, Option.pure_def, siblingsFrom]

/-- The digests of the leaves, before the first pass. -/
lemma seenAt_seenLeaves {F : Type} {hashOrNoop : List F → D} {val : ℕ → D} {height : ℕ}
    (pairs : List (ℕ × List F)) (hleaves : ∀ p ∈ pairs, InLayer height 0 p.1)
    (hhash : ∀ p ∈ pairs, hashOrNoop p.2 = val p.1) :
    SeenAt val (pairs.map (·.1)) height [] 0 (seenLeaves hashOrNoop pairs) := by
  have hspec : ∀ rest : List (ℕ × List F), (∀ p ∈ rest, p ∈ pairs) → ∀ seen : ℕ → Option D,
      let seen' : ℕ → Option D := rest.foldl
        (fun seen l => Function.update seen l.1 (some (hashOrNoop l.2))) seen
      ∀ k, (seen' k = seen k ∧ k ∉ rest.map (·.1)) ∨
        (seen' k = some (val k) ∧ k ∈ rest.map (·.1)) := by
    intro rest
    induction rest with
    | nil => exact fun _ seen k => .inl ⟨rfl, List.not_mem_nil⟩
    | cons p rest ih =>
      intro hmem seen seen' k
      rcases ih (fun q hq => hmem q (List.mem_cons_of_mem p hq))
        (Function.update seen p.1 (some (hashOrNoop p.2))) k with ⟨hk, hnot⟩ | ⟨hk, hin⟩
      · by_cases heq : k = p.1
        · right
          refine ⟨?_, by simp [heq]⟩
          subst heq
          refine hk.trans ?_
          rw [Function.update_self, hhash p (hmem p List.mem_cons_self)]
        · left
          rw [Function.update_of_ne heq] at hk
          exact ⟨hk, by simpa [heq] using hnot⟩
      · exact .inr ⟨hk, by simp only [List.map_cons, List.mem_cons, hin, or_true]⟩
  have hcases := hspec pairs (fun _ hp => hp) fun _ => none
  have hnone : ∀ i k, 0 < i → i ≤ height → InLayer height i k →
      seenLeaves hashOrNoop pairs k = none := by
    intro i k hi hle hk
    rcases hcases k with ⟨hseen, -⟩ | ⟨-, hin⟩
    · exact hseen
    · obtain ⟨p, hp, rfl⟩ := List.mem_map.mp hin
      have := hk.eq (hleaves p hp) hle (Nat.zero_le height)
      omega
  refine ⟨?_, ?_, ?_, fun i k hi hle hk => hnone i k (by omega) hle hk⟩
  · intro k v hv
    rcases hcases k with ⟨hseen, -⟩ | ⟨hseen, -⟩
    · cases hseen.symm.trans hv
    · exact Option.some.inj (hv.symm.trans hseen)
  · intro k _
    rcases hcases k with ⟨hseen, hnot⟩ | ⟨hseen, hin⟩
    · refine iff_of_false (not_not.mpr hseen) ?_
      rintro (⟨l, hl, rfl⟩ | ⟨l, hl, -⟩)
      · exact hnot hl
      · exact List.not_mem_nil hl
    · refine iff_of_true ?_ (.inl ⟨k, hin, rfl⟩)
      rw [ne_eq, show seenLeaves hashOrNoop pairs k = some (val k) from hseen]
      exact Option.some_ne_none _
  · intro hlt k hk
    simp [hnone 1 k Nat.one_pos hlt hk]

/-! ### Other representations of digests -/

section Map

variable {E : Type} (f : D → E)

lemma compressPath_map (size : ℕ) (siblings : List D) (index : ℕ) (known : ℕ → Bool) :
    compressPath size (siblings.map f) index known =
      (compressPath size siblings index known).map fun r => (r.1.map f, r.2) := by
  induction siblings generalizing index known with
  | nil => rfl
  | cons sibling rest ih =>
    have hkept : (if known (index ^^^ 1) = true then [] else [f sibling]) =
        (if known (index ^^^ 1) = true then [] else [sibling]).map f := by
      split_ifs <;> rfl
    rw [List.map_cons, compressPath, compressPath]
    simp only [ih, hkept, Option.bind_eq_bind, Option.map_bind, Option.bind_map, Option.pure_def,
      Function.comp_def, Option.map_some, List.map_append]

lemma compressPaths_map (size : ℕ) (proofs : List (ℕ × List D)) (known : ℕ → Bool) :
    compressPaths size (proofs.map fun p => (p.1, p.2.map f)) known =
      (compressPaths size proofs known).map (·.map (·.map f)) := by
  induction proofs generalizing known with
  | nil => rfl
  | cons p proofs ih =>
    rw [List.map_cons, compressPaths, compressPaths, compressPath_map]
    simp only [ih, Option.bind_eq_bind, Option.map_bind, Option.bind_map, Option.pure_def,
      Function.comp_def, Option.map_some, List.map_cons]

/-- Compression does not look into the digests. -/
lemma compressMerkleProofs_map (capHeight : ℕ) (indices : List ℕ) (proofs : List (List D)) :
    compressMerkleProofs capHeight indices (proofs.map (·.map f)) =
      (compressMerkleProofs capHeight indices proofs).map (·.map (·.map f)) := by
  rw [compressMerkleProofs, compressMerkleProofs, List.head?_map]
  cases proofs.head? with
  | none => rfl
  | some first =>
    have hzip : ∀ is : List ℕ, is.zip (proofs.map (·.map f)) =
        (is.zip proofs).map fun p => (p.1, p.2.map f) := by
      intro is
      rw [List.zip_map_right]
      rfl
    simp only [Option.map_some, Option.bind_eq_bind, Option.bind_some, List.length_map, hzip,
      compressPaths_map, Option.map_bind, Function.comp_def]

end Map

/-! ### Proofs of one tree -/

section Tree

variable {permute : (Fin 12 → GoldilocksField) → Fin 12 → GoldilocksField}
  {leaves : List (List GoldilocksField)} {capHeight height : ℕ}
  {tree : MerkleTree GoldilocksField}

/-- The nodes of a tree, numbered from the root on. -/
def heapNode (permute : (Fin 12 → GoldilocksField) → Fin 12 → GoldilocksField)
    (leaves : List (List GoldilocksField)) (height k : ℕ) : HashOut GoldilocksField :=
  merkleNode permute leaves (height - Nat.log2 k) (k - 2 ^ Nat.log2 k)

lemma heapNode_add {j x : ℕ} (hj : j ≤ height) (hx : x < 2 ^ (height - j)) :
    heapNode permute leaves height (x + 2 ^ (height - j)) = merkleNode permute leaves j x := by
  have hlog : Nat.log2 (x + 2 ^ (height - j)) = height - j := by
    rw [Nat.log2_eq_iff (by have := Nat.two_pow_pos (height - j); omega), pow_succ]
    omega
  rw [heapNode, hlog, Nat.add_sub_cancel, Nat.sub_sub_self hj]

lemma shiftRight_add_two_pow {j : ℕ} (x : ℕ) (hj : j ≤ height) :
    (x + 2 ^ height) >>> j = x >>> j + 2 ^ (height - j) := by
  have hpow : 2 ^ height = 2 ^ (height - j) * 2 ^ j := by
    rw [← pow_add, Nat.sub_add_cancel hj]
  rw [Nat.shiftRight_eq_div_pow, Nat.shiftRight_eq_div_pow, hpow,
    Nat.add_mul_div_right _ _ (Nat.two_pow_pos j)]

lemma xor_one_add_two_pow {n : ℕ} (x : ℕ) (hn : n ≠ 0) : (x + 2 ^ n) ^^^ 1 = (x ^^^ 1) + 2 ^ n := by
  obtain ⟨n, rfl⟩ := Nat.exists_eq_succ_of_ne_zero hn
  have hx := xor_one_eq (x / 2) (x % 2) (Nat.mod_lt _ Nat.two_pos)
  have hsum := xor_one_eq (x / 2 + 2 ^ n) (x % 2) (Nat.mod_lt _ Nat.two_pos)
  have hleft : 2 * (x / 2 + 2 ^ n) + x % 2 = x + 2 ^ (n + 1) := by
    rw [pow_succ]
    omega
  rw [Nat.div_add_mod] at hx
  rw [hleft] at hsum
  rw [hsum, hx, pow_succ]
  omega

variable {x j : ℕ} (hx : x < 2 ^ height)

include hx

lemma heapNode_path (hj : j ≤ height) :
    heapNode permute leaves height ((x + 2 ^ height) >>> j) =
      merkleNode permute leaves j (x >>> j) := by
  rw [shiftRight_add_two_pow x hj, heapNode_add hj (shiftRight_lt hx)]

lemma heapNode_sibling (hj : j < height) :
    heapNode permute leaves height ((x + 2 ^ height) >>> j ^^^ 1) =
      merkleNode permute leaves j (x >>> j ^^^ 1) := by
  have hlt : x >>> j ^^^ 1 < 2 ^ (height - j) := by
    obtain ⟨n, hn⟩ : ∃ n, height - j = n + 1 := ⟨height - (j + 1), by omega⟩
    rw [hn]
    apply Nat.xor_lt_two_pow
    · rw [← hn]
      exact shiftRight_lt hx
    · exact Nat.one_lt_two_pow (Nat.succ_ne_zero n)
  rw [shiftRight_add_two_pow x hj.le, xor_one_add_two_pow _ (by omega), heapNode_add hj.le hlt]

lemma heapNode_parent (hj : j < height) :
    heapNode permute leaves height ((x + 2 ^ height) >>> (j + 1)) =
      if (x + 2 ^ height) >>> j % 2 = 0 then
        compress permute (heapNode permute leaves height ((x + 2 ^ height) >>> j))
          (heapNode permute leaves height ((x + 2 ^ height) >>> j ^^^ 1))
      else compress permute (heapNode permute leaves height ((x + 2 ^ height) >>> j ^^^ 1))
          (heapNode permute leaves height ((x + 2 ^ height) >>> j)) := by
  have hparity : (x + 2 ^ height) >>> j % 2 = x >>> j % 2 := by
    obtain ⟨n, hn⟩ : ∃ n, height - j = n + 1 := ⟨height - (j + 1), by omega⟩
    rw [shiftRight_add_two_pow x hj.le, hn, pow_succ, Nat.add_mul_mod_self_right]
  have hup : x >>> j >>> 1 = x >>> (j + 1) := (Nat.shiftRight_add x j 1).symm
  have hparent := (isTree_merkleNode permute leaves height height).parent hj (k := x >>> j)
    (by rw [hup]; exact shiftRight_lt hx)
  rw [heapNode_path hx hj.le, heapNode_path hx hj, heapNode_sibling hx hj, hparity, ← hup,
    ← hparent]
  rcases Nat.mod_two_eq_zero_or_one (x >>> j) with h | h
  · simp [h]
  · simp [h]

variable (permute leaves) in
lemma siblingsFrom_heapNode (n i : ℕ) (hi : i + n ≤ height) :
    siblingsFrom (heapNode permute leaves height) (x + 2 ^ height) n i =
      (List.range n).map fun j => merkleNode permute leaves (i + j) (x >>> (i + j) ^^^ 1) := by
  induction n generalizing i with
  | zero => rfl
  | succ n ih =>
    have hrest := ih (i + 1) (by omega)
    simp only [Nat.add_assoc i 1, Nat.add_comm 1] at hrest
    rw [siblingsFrom, hrest, heapNode_sibling hx (by omega), List.range_succ_eq_map, List.map_cons,
      List.map_map, Nat.add_zero]
    rfl

omit hx

/-- What reads of valid positions returned. -/
lemma eq_map_of_mapM_get {F : Type} {tree : MerkleTree F} {indices : List ℕ}
    {leavesData : List (List F)} (hget : indices.mapM tree.get = some leavesData) :
    (∀ i ∈ indices, i < tree.leaves.length) ∧
      leavesData = indices.map (tree.leaves.getD · []) := by
  induction indices generalizing leavesData with
  | nil =>
    obtain rfl := Option.some.inj hget
    simp
  | cons i indices ih =>
    simp only [List.mapM_cons, Option.bind_eq_bind, Option.bind_eq_some_iff, Option.pure_def,
      Option.some.injEq] at hget
    obtain ⟨leaf, hleaf, rest, hrest, rfl⟩ := hget
    obtain ⟨hmem, rfl⟩ := ih hrest
    obtain ⟨hi, rfl⟩ := List.getElem?_eq_some_iff.mp hleaf
    refine ⟨List.forall_mem_cons.mpr ⟨hi, hmem⟩, ?_⟩
    rw [List.map_cons, List.getD_eq_getElem?_getD, List.getElem?_eq_getElem hi, Option.getD_some]

lemma zip_keptProofs (val : ℕ → D) (leaves : List ℕ) (layers j : ℕ) (before rest : List ℕ) :
    rest.zip ((keptProofs val leaves layers j before rest).map (·.2)) =
      keptProofs val leaves layers j before rest := by
  induction rest generalizing before with
  | nil => rfl
  | cons leaf rest ih => rw [keptProofs, List.map_cons, List.zip_cons_cons, ih]

/-- The siblings of a leaf up to the cap. -/
def treePath (permute : (Fin 12 → GoldilocksField) → Fin 12 → GoldilocksField)
    (leaves : List (List GoldilocksField)) (height layers i : ℕ) : List (HashOut GoldilocksField) :=
  siblingsFrom (heapNode permute leaves height) (i + 2 ^ height) layers 0

/-- What compression keeps of the proofs of some leaves. -/
def treeKept (permute : (Fin 12 → GoldilocksField) → Fin 12 → GoldilocksField)
    (leaves : List (List GoldilocksField)) (height layers : ℕ) (indices : List ℕ) :
    List (ℕ × List (HashOut GoldilocksField)) :=
  keptProofs (heapNode permute leaves height) (indices.map (· + 2 ^ height)) layers 0 []
    (indices.map (· + 2 ^ height))

lemma treePath_eq (layers : ℕ) {i : ℕ} (hi : i < 2 ^ height) (hlayers : layers ≤ height) :
    treePath permute leaves height layers i =
      (List.range layers).map fun j => merkleNode permute leaves j (i >>> j ^^^ 1) := by
  have hsiblings := siblingsFrom_heapNode permute leaves hi layers 0 (by omega)
  simp only [Nat.zero_add] at hsiblings
  exact hsiblings

lemma inLayer_nodes {indices : List ℕ} (hindices : ∀ i ∈ indices, i < 2 ^ height) :
    ∀ l ∈ indices.map (· + 2 ^ height), InLayer height 0 l := by
  intro l hl
  obtain ⟨i, hi, rfl⟩ := List.mem_map.mp hl
  have := hindices i hi
  rw [InLayer, Nat.sub_zero, pow_succ]
  omega

/-- What compression keeps of the paths of a tree. -/
lemma compressMerkleProofs_treePath {indices : List ℕ} (hindices : ∀ i ∈ indices, i < 2 ^ height)
    (hne : indices ≠ []) (hcap : capHeight ≤ height) :
    compressMerkleProofs capHeight indices
        (indices.map (treePath permute leaves height (height - capHeight))) =
      some ((treeKept permute leaves height (height - capHeight) indices).map (·.2)) := by
  set layers := height - capHeight with hlayers
  set path := treePath permute leaves height layers with hpath_def
  set nodes := indices.map (· + 2 ^ height) with hnodes
  have hpath := inLayer_nodes hindices
  obtain ⟨first, rest, hcons⟩ := List.exists_cons_of_ne_nil hne
  have hhead : (indices.map path).head? = some (path first) := by rw [hcons]; rfl
  have hfirst : (path first).length = layers := by
    have hmem : first ∈ indices := by simp [hcons]
    rw [hpath_def, treePath_eq layers (hindices first hmem) (Nat.sub_le _ _), List.length_map,
      List.length_range]
  have hheight : capHeight + layers = height := Nat.add_sub_cancel' hcap
  have hpairs : nodes.zip (indices.map path) = nodes.map fun l =>
      (l, siblingsFrom (heapNode permute leaves height) l layers 0) := by
    rw [hnodes, List.zip_map', List.map_map]
    rfl
  obtain ⟨known, hknown, hat⟩ := knownPaths_spec hpath (Nat.sub_le height capHeight)
  have hspec := compressPaths_spec (heapNode permute leaves height) hpath
    (Nat.sub_le height capHeight) (fun _ hl => hl) hat
  rw [compressMerkleProofs]
  simp only [hhead, Option.bind_eq_bind, Option.bind_some, hfirst, hheight, Nat.one_shiftLeft,
    ← hlayers, ← hnodes, hpairs]
  rw [hknown, Option.bind_some, hspec]
  rfl

/-- Proofs that start with what compression keeps lead back to the paths. -/
lemma decompressMerkleProofs_treePath {indices : List ℕ} (hindices : ∀ i ∈ indices, i < 2 ^ height)
    (hcap : capHeight ≤ height) {proofs : List (List (HashOut GoldilocksField))}
    (hproofs : Suffices (heapNode permute leaves height) (indices.map (· + 2 ^ height))
      (height - capHeight) 0 [] (indices.map (· + 2 ^ height))
      ((indices.map (· + 2 ^ height)).zip proofs)) :
    decompressMerkleProofs (hashOrNoop permute) (compress permute) (indices.map (leaves.getD · []))
        indices proofs height capHeight =
      some (indices.map (treePath permute leaves height (height - capHeight))) := by
  set layers := height - capHeight with hlayers
  set nodes := indices.map (· + 2 ^ height) with hnodes
  have hpath := inLayer_nodes hindices
  have hval : ∀ l ∈ nodes, ∀ j < layers, heapNode permute leaves height (l >>> (j + 1)) =
      if l >>> j % 2 = 0 then compress permute (heapNode permute leaves height (l >>> j))
        (heapNode permute leaves height (l >>> j ^^^ 1))
      else compress permute (heapNode permute leaves height (l >>> j ^^^ 1))
        (heapNode permute leaves height (l >>> j)) := by
    intro l hl j hj
    obtain ⟨i, hi, rfl⟩ := List.mem_map.mp hl
    exact heapNode_parent (hindices i hi) (by omega)
  have hdata : nodes.zip (indices.map (leaves.getD · [])) =
      indices.map fun i => (i + 2 ^ height, leaves.getD i []) := by
    rw [hnodes, List.zip_map']
  have hhash : ∀ p ∈ indices.map fun i => (i + 2 ^ height, leaves.getD i []),
      hashOrNoop permute p.2 = heapNode permute leaves height p.1 := by
    rw [List.forall_mem_map]
    exact fun i hi => (heapNode_path (hindices i hi) (Nat.zero_le height)).symm
  have hseen := seenAt_seenLeaves
    (indices.map fun i => (i + 2 ^ height, leaves.getD i []))
    (List.forall_mem_map.mpr fun i hi => hpath _ (List.mem_map_of_mem hi)) hhash
  rw [List.map_map] at hseen
  obtain ⟨seen, hlayers', hvalue, -, hfound⟩ :=
    decompressLayers_spec hpath (Nat.sub_le height capHeight) hval layers 0 (Nat.zero_add _)
      hproofs hseen
  rw [decompressMerkleProofs]
  simp only [guard, if_pos hcap, Option.bind_eq_bind, Option.bind_some, Option.pure_def,
    Nat.one_shiftLeft, ← hlayers, ← hnodes, hdata]
  rw [hlayers', Option.bind_some, hnodes, List.mapM_map]
  apply Fold.mapM_eq_some_map
  intro i hi
  apply decompressPath_eq layers 0
  intro j _ hj
  have hnode := hfound _ (List.mem_map_of_mem hi) j (Nat.zero_le j) (by omega)
  obtain ⟨v, hv⟩ := Option.ne_none_iff_exists'.mp hnode
  exact hv.trans (congrArg some (hvalue _ v hv))

/-- The proofs of a tree are its paths. -/
lemma MerkleTree.prove_eq_treePath (hnew : MerkleTree.new permute leaves capHeight = some tree)
    (hlen : leaves.length = 2 ^ height) {i : ℕ} (hi : i < 2 ^ height) :
    tree.prove i = some (treePath permute leaves height (height - capHeight) i) := by
  rw [MerkleTree.prove_eq hlen hi hnew, treePath_eq _ hi (Nat.sub_le _ _)]

/-- The proofs of any leaves of a tree, compressed together, are found again. -/
theorem MerkleTree.decompress_compress
    (hnew : MerkleTree.new permute leaves capHeight = some tree)
    (hlen : leaves.length = 2 ^ height) {indices : List ℕ} (hne : indices ≠ [])
    {leavesData : List (List GoldilocksField)}
    (hget : indices.mapM tree.get = some leavesData) :
    ∃ proofs compressed, indices.mapM tree.prove = some proofs ∧
      compressMerkleProofs capHeight indices proofs = some compressed ∧
      decompressMerkleProofs (hashOrNoop permute) (compress permute) leavesData indices compressed
        height capHeight = some proofs := by
  obtain ⟨logN, hlen', hcap, htree⟩ := MerkleTree.new_eq_some hnew
  obtain rfl : height = logN := Nat.pow_right_injective (le_refl 2) (hlen.symm.trans hlen')
  have hleaves : tree.leaves = leaves := by rw [htree]
  obtain ⟨hindices, rfl⟩ := eq_map_of_mapM_get hget
  rw [hleaves, hlen] at hindices
  rw [hleaves]
  refine ⟨_, _, Fold.mapM_eq_some_map fun i hi => MerkleTree.prove_eq_treePath hnew hlen (hindices i hi),
    compressMerkleProofs_treePath hindices hne hcap,
    decompressMerkleProofs_treePath hindices hcap ?_⟩
  rw [treeKept, zip_keptProofs]
  exact suffices_keptProofs _ _ _ _ _ _

/-- Both leaves of a tree. -/
theorem MerkleTree.decompress_compress_pair : ∃ tree proofs compressed,
    MerkleTree.new hostPermute [[1], [2]] 0 = some tree ∧ [0, 1].mapM tree.prove = some proofs ∧
      compressMerkleProofs 0 [0, 1] proofs = some compressed ∧
      decompressMerkleProofs (hashOrNoop hostPermute) (compress hostPermute) [[1], [2]] [0, 1]
        compressed 1 0 = some proofs := by
  obtain ⟨tree, hnew, hget⟩ : ∃ tree, MerkleTree.new hostPermute [[1], [2]] 0 = some tree ∧
    [0, 1].mapM tree.get = some [[1], [2]] := ⟨_, rfl, rfl⟩
  have hlen : ([[1], [2]] : List (List GoldilocksField)).length = 2 ^ 1 := rfl
  obtain ⟨proofs, compressed, hprove, hcompress, hdecompress⟩ :=
    MerkleTree.decompress_compress hnew hlen (List.cons_ne_nil 0 [1]) hget
  exact ⟨tree, proofs, compressed, hnew, hprove, hcompress, hdecompress⟩

end Tree

end MegaZK
