import MegaZK.Fri.Compression

/-! # The columns of a compressed FRI proof

A FRI proof opens several trees for each query. For each tree the maps of the compressed proof keep
what the first query of a leaf keeps, which is enough to find the proofs of all queries. -/

namespace MegaZK

open MerklePath

/-! ### Maps that keep the first entry -/

section Entries

variable {V : Type}

lemma lookup_orInsert (m : List (ℕ × V)) (k : ℕ) (v : V) (j : ℕ) :
    (orInsert m k v).lookup j = (m.lookup j).or (if j = k then some v else none) := by
  rw [orInsert]
  split_ifs with hin hj hj
  · subst hj
    obtain ⟨w, hw⟩ := Option.isSome_iff_exists.mp hin
    rw [hw, Option.some_or]
  · rw [Option.or_none]
  · rw [List.lookup_append, List.lookup_cons, hj]
    simp
  · rw [List.lookup_append, List.lookup_cons, beq_false_of_ne hj]
    rfl

/-- A fold of insertions finds the first entry. -/
lemma lookup_foldl_orInsert (entries m : List (ℕ × V)) (j : ℕ) :
    (entries.foldl (fun m e => orInsert m e.1 e.2) m).lookup j =
      (m.lookup j).or (entries.lookup j) := by
  induction entries generalizing m with
  | nil => rw [List.foldl_nil, List.lookup_nil, Option.or_none]
  | cons e entries ih =>
    rw [List.foldl_cons, ih, lookup_orInsert, Option.or_assoc, List.lookup_cons]
    by_cases hj : j = e.1
    · rw [if_pos hj, hj, beq_self_eq_true, Option.some_or]
    · rw [if_neg hj, beq_false_of_ne hj, Option.none_or]

/-- The entries of the elements of a list, whose values may depend on the elements before. -/
def entriesFrom (key : ℕ → ℕ) (value : List ℕ → ℕ → V) : List ℕ → List ℕ → List (ℕ × V)
  | _, [] => []
  | before, x :: rest => (key x, value before x) :: entriesFrom key value (before ++ [x]) rest

variable {key : ℕ → ℕ} {value : List ℕ → ℕ → V}

lemma entriesFrom_append (before xs ys : List ℕ) :
    entriesFrom key value before (xs ++ ys) =
      entriesFrom key value before xs ++ entriesFrom key value (before ++ xs) ys := by
  induction xs generalizing before with
  | nil => simp [entriesFrom]
  | cons x xs ih => simp [entriesFrom, ih]

lemma length_entriesFrom (before xs : List ℕ) :
    (entriesFrom key value before xs).length = xs.length := by
  induction xs generalizing before with
  | nil => rfl
  | cons x xs ih => rw [entriesFrom, List.length_cons, ih, List.length_cons]

lemma getElem?_entriesFrom (b : List ℕ) (x : ℕ) (r : List ℕ) :
    (entriesFrom key value [] (b ++ x :: r))[b.length]? = some (key x, value b x) := by
  rw [entriesFrom_append, List.getElem?_append_right (by rw [length_entriesFrom]),
    length_entriesFrom, Nat.sub_self]
  rfl

lemma lookup_entriesFrom_of_notMem {before xs : List ℕ} {k : ℕ} (h : ∀ x ∈ xs, key x ≠ k) :
    (entriesFrom key value before xs).lookup k = none := by
  induction xs generalizing before with
  | nil => rfl
  | cons x xs ih =>
    obtain ⟨hx, hxs⟩ := List.forall_mem_cons.mp h
    rw [entriesFrom, List.lookup_cons, beq_false_of_ne hx.symm]
    exact ih hxs

variable (key value) in
/-- The first element with a key. -/
lemma lookup_entriesFrom_first {b : List ℕ} {x : ℕ} (h : ∀ x' ∈ b, key x' ≠ key x) (r : List ℕ) :
    (entriesFrom key value [] (b ++ x :: r)).lookup (key x) = some (value b x) := by
  rw [entriesFrom_append, List.lookup_append, lookup_entriesFrom_of_notMem h, Option.none_or,
    entriesFrom, List.lookup_cons, beq_self_eq_true]
  rfl

variable (key value) in
lemma exists_lookup_entriesFrom {before xs : List ℕ}
    {x : ℕ} (hx : x ∈ xs) : ∃ v, (entriesFrom key value before xs).lookup (key x) = some v := by
  induction xs generalizing before with
  | nil => cases hx
  | cons y xs ih =>
    rw [entriesFrom, List.lookup_cons]
    by_cases hkey : key x = key y
    · exact ⟨_, by rw [hkey, beq_self_eq_true]⟩
    · rw [beq_false_of_ne hkey]
      rcases List.mem_cons.mp hx with rfl | hx
      · exact absurd rfl hkey
      · exact ih hx

lemma mem_entriesFrom {before xs : List ℕ} {e : ℕ × V} (h : e ∈ entriesFrom key value before xs) :
    ∃ b x, e = (key x, value b x) := by
  induction xs generalizing before with
  | nil => cases h
  | cons x xs ih =>
    rcases List.mem_cons.mp h with rfl | h
    · exact ⟨before, x, rfl⟩
    · exact ih h

lemma mem_foldl_orInsert {entries m : List (ℕ × V)} {e : ℕ × V}
    (h : e ∈ entries.foldl (fun m e => orInsert m e.1 e.2) m) : e ∈ m ∨ e ∈ entries := by
  induction entries generalizing m with
  | nil => exact .inl h
  | cons d entries ih =>
    rcases ih h with hm | hm
    · replace hm : e ∈ orInsert m d.1 d.2 := hm
      rw [orInsert] at hm
      split_ifs at hm
      · exact .inl hm
      · rcases List.mem_append.mp hm with hm | hm
        · exact .inl hm
        · rw [List.mem_singleton.mp hm]
          exact .inr List.mem_cons_self
    · exact .inr (List.mem_cons_of_mem d hm)

end Entries

/-! ### Rows and columns -/

section Pushed

variable {α β : Type}

lemma pushed_cons {n : ℕ} {row : List α} {rows trees : List (List α)} (hrow : row.length = n)
    (h : pushed n rows = some trees) :
    pushed n (row :: rows) = some (List.zipWith List.cons row trees) := by
  simp only [pushed, guard, Option.bind_eq_bind, Option.pure_def] at h ⊢
  split_ifs at h with hrows
  · have htrees := Option.some.inj h
    have hall : ∀ r ∈ row :: rows, r.length ≤ n := List.forall_mem_cons.mpr ⟨hrow.le, hrows⟩
    rw [if_pos hall]
    refine congrArg some (List.ext_getElem ?_ ?_)
    · simp [← htrees, hrow]
    · intro j hj _
      rw [List.length_map, List.length_range] at hj
      simp [← htrees, List.getElem?_eq_getElem (hrow.symm ▸ hj)]
  · cases h

/-- Rows of one shape are transposed. -/
lemma pushed_map (cols : List β) (xs : List ℕ) (f : β → ℕ → α) :
    pushed cols.length (xs.map fun x => cols.map (f · x)) =
      some (cols.map fun col => xs.map (f col)) := by
  induction xs with
  | nil =>
    refine congrArg some (List.ext_getElem (by simp) ?_)
    intro j _ _
    simp
  | cons x xs ih =>
    rw [List.map_cons, pushed_cons (List.length_map _) ih, List.zipWith_map]
    simp [List.zipWith_self]

end Pushed

/-! ### The openings of one tree -/

/-- A tree that is opened for each query, at what is left of the index. -/
structure Column where
  shift : ℕ
  height : ℕ
  leaves : List (List GoldilocksField)

namespace Column

variable (permute : (Fin 12 → GoldilocksField) → Fin 12 → GoldilocksField) (capHeight : ℕ)
  (col : Column) (xs : List ℕ)

/-- The leaf that is opened for an index, numbered from the root on. -/
def node (x : ℕ) : ℕ := x >>> col.shift + 2 ^ col.height

/-- The data of the leaf. -/
def leaf (x : ℕ) : List GoldilocksField := col.leaves.getD (x >>> col.shift) []

/-- The siblings of the leaf. -/
def path (x : ℕ) : List (HashOut GoldilocksField) :=
  treePath permute col.leaves col.height (col.height - capHeight) (x >>> col.shift)

/-- What compression keeps of the siblings, after the queries of `before`. -/
def kept (before : List ℕ) (x : ℕ) : List (HashOut GoldilocksField) :=
  keptFrom (heapNode permute col.leaves col.height) (xs.map col.node) (before.map col.node)
    (col.node x) (col.height - capHeight) 0

/-- Proofs for the queries of a list, each of which starts with what is kept. -/
inductive Supplied : List ℕ → List ℕ → List (List (List GoldilocksField)) → Prop
  | nil {before : List ℕ} : Supplied before [] []
  | cons {before rest : List ℕ} {x : ℕ} {proof : List (List GoldilocksField)}
      {proofs : List (List (List GoldilocksField))}
      (starts : col.kept permute capHeight xs before x <+: proof.map hashOf)
      (others : Supplied (before ++ [x]) rest proofs) : Supplied before (x :: rest) (proof :: proofs)

lemma keptProofs_node (before rest : List ℕ) :
    keptProofs (heapNode permute col.leaves col.height) (xs.map col.node)
        (col.height - capHeight) 0 (before.map col.node) (rest.map col.node) =
      entriesFrom col.node (col.kept permute capHeight xs) before rest := by
  induction rest generalizing before with
  | nil => rfl
  | cons x rest ih =>
    have hnext := ih (before ++ [x])
    rw [List.map_append, List.map_singleton] at hnext
    rw [List.map_cons, keptProofs, hnext]
    rfl

variable {permute capHeight col xs}

lemma kept_of_mem {before : List ℕ} {x y : ℕ} (hy : y ∈ before)
    (h : y >>> col.shift = x >>> col.shift) : col.kept permute capHeight xs before x = [] := by
  refine keptFrom_of_mem _ (List.mem_map.mpr ⟨y, hy, ?_⟩) _ _
  rw [node, node, h]

lemma Supplied.suffices {before rest : List ℕ} {proofs : List (List (List GoldilocksField))}
    (h : col.Supplied permute capHeight xs before rest proofs) :
    Suffices (heapNode permute col.leaves col.height) (xs.map col.node) (col.height - capHeight) 0
      (before.map col.node) (rest.map col.node)
      ((rest.map col.node).zip (proofs.map (·.map hashOf))) := by
  induction h with
  | nil => exact .nil
  | cons starts _ ih =>
    rw [List.map_append, List.map_singleton] at ih
    exact .cons starts ih

variable (hindex : ∀ x ∈ xs, x >>> col.shift < 2 ^ col.height) (hcap : capHeight ≤ col.height)

include hindex hcap

variable (permute) in
/-- The compressed proofs of a tree, in the order of the queries. -/
lemma compress (hne : xs ≠ []) :
    compressMerkleProofs capHeight (xs.map (· >>> col.shift))
        (xs.map fun x => proofOf (col.path permute capHeight x)) =
      some ((entriesFrom col.node (col.kept permute capHeight xs) [] xs).map fun e =>
        proofOf e.2) := by
  have hindices : ∀ i ∈ xs.map (· >>> col.shift), i < 2 ^ col.height := by
    simpa using hindex
  have hpaths : (xs.map fun x => proofOf (col.path permute capHeight x)) =
      ((xs.map (· >>> col.shift)).map
        (treePath permute col.leaves col.height (col.height - capHeight))).map
          (·.map List.ofFn) := by
    rw [List.map_map, List.map_map]
    rfl
  have hnodes : (xs.map (· >>> col.shift)).map (· + 2 ^ col.height) = xs.map col.node := by
    rw [List.map_map]
    rfl
  have hkept := keptProofs_node permute capHeight col xs [] xs
  rw [hpaths, compressMerkleProofs_map, compressMerkleProofs_treePath hindices (by simpa using hne)
    hcap, treeKept, hnodes, ← hkept]
  simp [proofOf]

/-- Proofs that start with what is kept are enough to find all siblings. -/
lemma decompress {tree : List TreeRow} (hkeys : tree.map (·.1) = xs.map (· >>> col.shift))
    (hleaves : tree.map (·.2.1) = xs.map col.leaf)
    (hproofs : col.Supplied permute capHeight xs [] xs (tree.map (·.2.2))) :
    decompressTree permute col.height capHeight tree =
      some (xs.map fun x => proofOf (col.path permute capHeight x)) := by
  have hindices : ∀ i ∈ xs.map (· >>> col.shift), i < 2 ^ col.height := by
    simpa using hindex
  have hnodes : (xs.map (· >>> col.shift)).map (· + 2 ^ col.height) = xs.map col.node := by
    rw [List.map_map]
    rfl
  have hdata : xs.map col.leaf = (xs.map (· >>> col.shift)).map (col.leaves.getD · []) := by
    rw [List.map_map]
    rfl
  have hsuffices := hproofs.suffices
  rw [List.map_map] at hsuffices
  rw [decompressTree, hkeys, hleaves, hdata,
    decompressMerkleProofs_treePath hindices hcap (by rw [hnodes]; exact hsuffices)]
  simp only [Option.bind_eq_bind, Option.bind_some, Option.pure_def, List.map_map]
  rfl

end Column

/-! ### The openings of all trees -/

section Rows

variable (permute : (Fin 12 → GoldilocksField) → Fin 12 → GoldilocksField) (capHeight : ℕ)

/-- What a query opens in a tree, with a proof that starts with what is kept. -/
structure Column.Opens (col : Column) (xs before : List ℕ) (x : ℕ) (row : TreeRow) : Prop where
  index : row.1 = x >>> col.shift
  leaf : row.2.1 = col.leaf x
  starts : col.kept permute capHeight xs before x <+: row.2.2.map hashOf

/-- The rows of the queries of a list. -/
inductive Rows (cols : List Column) (xs : List ℕ) : List ℕ → List ℕ → List (List TreeRow) → Prop
  | nil {before : List ℕ} : Rows cols xs before [] []
  | cons {before rest : List ℕ} {x : ℕ} {row : List TreeRow} {rows : List (List TreeRow)}
      (opens : List.Forall₂ (fun col => col.Opens permute capHeight xs before x) cols row)
      (others : Rows cols xs (before ++ [x]) rest rows) :
      Rows cols xs before (x :: rest) (row :: rows)

/-- The rows of one tree. -/
structure Column.Opened (col : Column) (xs before rest : List ℕ) (tree : List TreeRow) :
    Prop where
  index : tree.map (·.1) = rest.map (· >>> col.shift)
  leaf : tree.map (·.2.1) = rest.map col.leaf
  supplied : col.Supplied permute capHeight xs before rest (tree.map (·.2.2))

variable {permute capHeight} {cols : List Column} {xs : List ℕ}

lemma forall₂_zipWith_cons {α β : Type} {R : α → β → Prop} {S T : α → List β → Prop}
    {as : List α} {bs : List β} {cs : List (List β)} (h : List.Forall₂ R as bs)
    (h' : List.Forall₂ S as cs) (hcons : ∀ a b c, R a b → S a c → T a (b :: c)) :
    List.Forall₂ T as (List.zipWith List.cons bs cs) := by
  induction h generalizing cs with
  | nil => exact .nil
  | cons hr _ ih =>
    cases h' with
    | cons hs hrest => exact .cons (hcons _ _ _ hr hs) (ih hrest)

/-- The rows that were pushed, tree by tree. -/
lemma Rows.opened {before rest : List ℕ} {rows : List (List TreeRow)}
    (h : Rows permute capHeight cols xs before rest rows) :
    ∃ trees, pushed cols.length rows = some trees ∧
      List.Forall₂ (fun col => col.Opened permute capHeight xs before rest) cols trees := by
  induction h with
  | nil =>
    refine ⟨cols.map fun _ => [], pushed_map cols [] fun _ _ => default, ?_⟩
    rw [List.forall₂_map_right_iff]
    exact List.forall₂_same.mpr fun col _ => ⟨rfl, rfl, .nil⟩
  | cons opens _ ih =>
    obtain ⟨trees, hpushed, htrees⟩ := ih
    refine ⟨_, pushed_cons opens.length_eq.symm hpushed, forall₂_zipWith_cons opens htrees ?_⟩
    intro col row tree hrow htree
    exact ⟨by rw [List.map_cons, List.map_cons, hrow.index, htree.index],
      by rw [List.map_cons, List.map_cons, hrow.leaf, htree.leaf], .cons hrow.starts htree.supplied⟩

variable {trees : List (List TreeRow)}
  (h : List.Forall₂ (fun col => col.Opened permute capHeight xs [] xs) cols trees)

include h

/-- All proofs are found, each tree with its height. -/
lemma decompress_opened
    (hindex : ∀ col ∈ cols, ∀ x ∈ xs, x >>> col.shift < 2 ^ col.height)
    (hcap : ∀ col ∈ cols, capHeight ≤ col.height) :
    ((trees.zip (cols.map (·.height))).mapM fun t => decompressTree permute t.2 capHeight t.1) =
      some (cols.map fun col => xs.map fun x => proofOf (col.path permute capHeight x)) := by
  induction h with
  | nil => rfl
  | cons hopened _ ih =>
    obtain ⟨hfirst, hindex⟩ := List.forall_mem_cons.mp hindex
    obtain ⟨hcap_first, hcap⟩ := List.forall_mem_cons.mp hcap
    rw [List.map_cons, List.zip_cons_cons, List.mapM_cons, ih hindex hcap, Column.decompress hfirst
      hcap_first hopened.index hopened.leaf hopened.supplied]
    rfl

/-- The leaves and the proofs of one query are read back. -/
lemma readBack_opened {α β : Type} (proofs : Column → ℕ → α) (g : List GoldilocksField → α → β)
    {i x : ℕ} (hx : xs[i]? = some x) :
    ((trees.zip (cols.map fun col => xs.map (proofs col))).mapM fun t => do
      let row ← t.1[i]?
      let proof ← t.2[i]?
      return g row.2.1 proof) = some (cols.map fun col => g (col.leaf x) (proofs col x)) := by
  induction h with
  | nil => rfl
  | @cons col tree _ _ hopened _ ih =>
    have hrow : tree[i]?.map (·.2.1) = some (col.leaf x) := by
      rw [← List.getElem?_map, hopened.leaf, List.getElem?_map, hx, Option.map_some]
    obtain ⟨row, hrow, hleaf⟩ := Option.map_eq_some_iff.mp hrow
    rw [List.map_cons, List.zip_cons_cons, List.mapM_cons, ih]
    simp only [hrow, List.getElem?_map, hx, Option.map_some, Option.bind_eq_bind, Option.bind_some,
      Option.pure_def, hleaf, List.map_cons]

end Rows

end MegaZK
