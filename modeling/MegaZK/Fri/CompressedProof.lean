import MegaZK.Fri.Completeness
import MegaZK.Fri.CompressedColumns

/-! # What compression makes of a proof

The maps that `compress` builds from a proof of the prover, level by level of the foldings. -/

namespace MegaZK

open Horner
open scoped QuadraticField

/-! ### Levels -/

/-- One folding, with the bits of the index that the foldings before it have used. -/
structure Level where
  start : ℕ
  arityBits : ℕ
  codeword : Codeword

/-- The foldings of a codeword. -/
def levelsOf : Codeword → List ℕ → List QuadraticExtension → ℕ → List Level
  | w, arityBits :: arities, beta :: betas, start =>
    ⟨start, arityBits, w⟩ :: levelsOf (w.fold arityBits beta) arities betas (start + arityBits)
  | _, _, _, _ => []

namespace Level

variable (permute : (Fin 12 → GoldilocksField) → Fin 12 → GoldilocksField) (capHeight : ℕ)
  (l : Level) (xs : List ℕ)

/-- The tree of the folding. -/
def column : Column where
  shift := l.start + l.arityBits
  height := l.codeword.bits - l.arityBits
  leaves := l.codeword.leaves l.arityBits

/-- The evaluations of a leaf. -/
def evalsAt (y : ℕ) : List (GoldilocksField × GoldilocksField) :=
  (l.codeword.leafValues l.arityBits y).map pairOf

/-- The position of an index within its leaf. -/
def position (x : ℕ) : ℕ := (x >>> l.start) &&& (1 <<< l.arityBits - 1)

/-- The step of the prover for an index. -/
def step (x : ℕ) : FriQueryStep GoldilocksField where
  evals := l.evalsAt (x >>> l.column.shift)
  merkleProof := proofOf (l.column.path permute capHeight x)

/-- The evaluations without the one that can be inferred. -/
def erasedEvals (x : ℕ) : List (GoldilocksField × GoldilocksField) :=
  (l.evalsAt (x >>> l.column.shift)).eraseIdx (l.position x)

/-- The step without the evaluation that can be inferred. -/
def erased (x : ℕ) : FriQueryStep GoldilocksField :=
  { l.step permute capHeight x with evals := l.erasedEvals x }

/-- The step that the maps hold, if no query of `before` has its leaf. -/
def entry (before : List ℕ) (x : ℕ) : FriQueryStep GoldilocksField :=
  { l.erased permute capHeight x with
    merkleProof := proofOf (l.column.kept permute capHeight xs before x) }

/-- The map after the queries of `before`. -/
def mapOf (before : List ℕ) : List (ℕ × FriQueryStep GoldilocksField) :=
  (entriesFrom (· >>> l.column.shift) (l.entry permute capHeight xs) [] before).foldl
    (fun m e => orInsert m e.1 e.2) []

end Level

section Foldings

variable {permute : (Fin 12 → GoldilocksField) → Fin 12 → GoldilocksField} {capHeight : ℕ}
  {w w' : Codeword} {arities : List ℕ} {trees : List (MerkleTree GoldilocksField)}
  {betas : List QuadraticExtension} (h : Foldings permute capHeight w arities trees betas w')

include h

lemma Foldings.length_levelsOf (s : ℕ) : (levelsOf w arities betas s).length = arities.length := by
  induction h generalizing s with
  | done w => rfl
  | fold _ _ ih => rw [levelsOf, List.length_cons, ih, List.length_cons]

/-- The foldings keep the index inside of the trees, and the trees above the cap. -/
lemma Foldings.bounds {s x : ℕ} (hcap : arities.sum + capHeight ≤ w.bits)
    (hx : x >>> s < 2 ^ w.bits) :
    ∀ l ∈ levelsOf w arities betas s, x >>> l.column.shift < 2 ^ l.column.height ∧
      capHeight ≤ l.column.height := by
  induction h generalizing s with
  | done w =>
    intro l hl
    cases hl
  | @fold w w' a arities tree trees beta betas htree _ ih =>
    rw [List.sum_cons] at hcap
    have hfold : (w.fold a beta).bits = w.bits - a := rfl
    have hnext : x >>> (s + a) < 2 ^ (w.bits - a) := by
      rw [Nat.shiftRight_add]
      exact MerklePath.shiftRight_lt hx
    rw [levelsOf, List.forall_mem_cons]
    refine ⟨⟨hnext, ?_⟩, ih (by omega) (by rwa [hfold])⟩
    change capHeight ≤ w.bits - a
    omega

lemma Foldings.bounds_of_mem (hcap : arities.sum + capHeight ≤ w.bits) {xs : List ℕ}
    (hindex : ∀ x ∈ xs, x < 2 ^ w.bits) :
    ∀ l ∈ levelsOf w arities betas 0,
      (∀ x ∈ xs, x >>> l.column.shift < 2 ^ l.column.height) ∧ capHeight ≤ l.column.height :=
  fun l hl => ⟨fun x hx => (h.bounds (s := 0) hcap (hindex x hx) l hl).1,
    (h.bounds (s := 0) (x := 0) hcap (by simp) l hl).2⟩

/-- The heights that `decompress` computes. -/
lemma Foldings.heights (s : ℕ) :
    ((levelsOf w arities betas s).map (·.column)).map (·.height) =
      (arities.scanl (· - ·) w.bits).tail := by
  induction h generalizing s with
  | done w => rfl
  | @fold w w' a arities tree trees beta betas htree _ ih =>
    rw [levelsOf, List.map_cons, List.map_cons, ih, List.scanl_cons, List.tail_cons]
    cases arities <;> simp [Level.column, Codeword.fold]

/-- Later foldings have used more bits of the index. -/
lemma Foldings.le_shift {s : ℕ} : ∀ l ∈ levelsOf w arities betas s, s ≤ l.start := by
  induction h generalizing s with
  | done w =>
    intro l hl
    cases hl
  | @fold w w' a arities tree trees beta betas htree _ ih =>
    rw [levelsOf, List.forall_mem_cons]
    refine ⟨le_rfl, fun l hl => ?_⟩
    exact (Nat.le_add_right s a).trans (ih l hl)

/-- The steps of the prover. -/
lemma Foldings.querySteps_eq {s x : ℕ} (hcap : arities.sum + capHeight ≤ w.bits)
    (hx : x >>> s < 2 ^ w.bits) :
    querySteps arities trees (x >>> s) =
      some ((levelsOf w arities betas s).map (·.step permute capHeight x)) := by
  induction h generalizing s with
  | done w => rfl
  | @fold w w' a arities tree trees beta betas htree _ ih =>
    rw [List.sum_cons] at hcap
    have hnext : x >>> s >>> a < 2 ^ (w.bits - a) := MerklePath.shiftRight_lt hx
    have hrest := ih (s := s + a) (by change _ ≤ w.bits - a; omega)
      (by rw [Nat.shiftRight_add]; exact hnext)
    rw [Nat.shiftRight_add] at hrest
    have hget : tree.get (x >>> s >>> a) = some (flatten (w.leafValues a (x >>> s >>> a))) := by
      obtain ⟨_, _, _, rfl⟩ := MerkleTree.new_eq_some htree
      rw [MerkleTree.get, Codeword.leaves, List.getElem?_map, List.getElem?_range hnext]
      rfl
    rw [querySteps, hget, MerkleTree.prove_eq_treePath htree (w.length_leaves a) hnext, hrest]
    simp only [Option.bind_eq_bind, Option.bind_some, Option.pure_def, Option.some.injEq, levelsOf,
      List.map_cons, List.cons.injEq, and_true]
    rw [Level.step, Level.evalsAt, Codeword.leafValues, unflatten_flatten_map_range]
    simp only [Level.column, Column.path, Codeword.leafValues, Nat.shiftRight_add, List.map_map]
    rfl

/-- The steps without what can be inferred. -/
lemma Foldings.removeInferred_eq (s x : ℕ) :
    removeInferred arities ((levelsOf w arities betas s).map (·.step permute capHeight x))
        (x >>> s) =
      some ((levelsOf w arities betas s).map fun l =>
        (x >>> l.column.shift, l.erased permute capHeight x)) := by
  induction h generalizing s with
  | done w => rfl
  | @fold w w' a arities tree trees beta betas htree _ ih =>
    have hlt := and_one_shiftLeft_sub_one_lt (x >>> s) a
    have hrest := ih (s + a)
    rw [Nat.shiftRight_add] at hrest
    rw [levelsOf, List.map_cons, removeInferred, hrest]
    simp only [guard, Level.step, Level.evalsAt, Codeword.leafValues, List.length_map,
      List.length_range, if_pos hlt, Option.bind_eq_bind, Option.bind_some, Option.pure_def,
      List.map_cons]
    simp only [Level.erased, Level.erasedEvals, Level.step, Level.evalsAt, Codeword.leafValues, Level.column,
      Level.position, Nat.shiftRight_add]

/-- One query enters the maps. -/
lemma Foldings.insertSteps_eq {s x : ℕ} {b r : List ℕ} :
    insertSteps b.length arities
        ((levelsOf w arities betas s).map fun l => (b ++ x :: r).map fun y =>
          (y >>> l.column.shift, l.erased permute capHeight y))
        ((levelsOf w arities betas s).map fun l => (entriesFrom l.column.node
          (l.column.kept permute capHeight (b ++ x :: r)) [] (b ++ x :: r)).map fun e =>
            proofOf e.2)
        ((levelsOf w arities betas s).map (·.mapOf permute capHeight (b ++ x :: r) b))
        (x >>> s) =
      some ((levelsOf w arities betas s).map
        (·.mapOf permute capHeight (b ++ x :: r) (b ++ [x]))) := by
  induction h generalizing s with
  | done w => rfl
  | @fold w w' a arities tree trees beta betas htree _ ih =>
    have hrest := ih (s := s + a)
    rw [Nat.shiftRight_add] at hrest
    have hx : (b ++ x :: r)[b.length]? = some x := by
      rw [List.getElem?_append_right le_rfl, Nat.sub_self, List.getElem?_cons_zero]
    rw [levelsOf, List.map_cons, List.map_cons, List.map_cons, insertSteps, hrest,
      List.getElem?_map, List.getElem?_map, hx, getElem?_entriesFrom]
    simp only [Option.map_some, Option.bind_eq_bind, Option.bind_some, Option.pure_def,
      Option.some.injEq, List.map_cons, List.cons.injEq, and_true]
    rw [Level.mapOf, Level.mapOf, entriesFrom_append, List.foldl_append]
    simp only [List.nil_append, entriesFrom, List.foldl_cons, List.foldl_nil, Level.column,
      Nat.shiftRight_add]
    rfl

end Foldings

/-! ### The compressed proof -/

section Compressed

variable (permute : (Fin 12 → GoldilocksField) → Fin 12 → GoldilocksField) (capHeight : ℕ)
  (cols : List Column) (ls : List Level)

/-- The openings of the oracles for a query. -/
def initialOf (x : ℕ) : List (List GoldilocksField × List (List GoldilocksField)) :=
  cols.map fun col => (col.leaf x, proofOf (col.path permute capHeight x))

/-- The round of the prover for a query. -/
def roundOf (x : ℕ) : FriQueryRound GoldilocksField where
  initialTreesProof := initialOf permute capHeight cols x
  steps := ls.map (·.step permute capHeight x)

/-- The openings that the map of the initial trees holds, if no query of `before` is the same. -/
def initialEntry (xs before : List ℕ) (x : ℕ) :
    List (List GoldilocksField × List (List GoldilocksField)) :=
  cols.map fun col => (col.leaf x, proofOf (col.kept permute capHeight xs before x))

/-- The map of the initial trees after the queries of `before`. -/
def initialMapOf (xs before : List ℕ) :
    List (ℕ × List (List GoldilocksField × List (List GoldilocksField))) :=
  (entriesFrom id (initialEntry permute capHeight cols xs) [] before).foldl
    (fun m e => orInsert m e.1 e.2) []

variable {permute capHeight cols}

lemma initialProofAt_eq {b r : List ℕ} {x : ℕ} :
    initialProofAt b.length
        (cols.map fun col => (b ++ x :: r).map fun y =>
          (y, col.leaf y, proofOf (col.path permute capHeight y)))
        (cols.map fun col => (entriesFrom col.node (col.kept permute capHeight (b ++ x :: r)) []
          (b ++ x :: r)).map fun e => proofOf e.2) =
      some (initialEntry permute capHeight cols (b ++ x :: r) b x) := by
  have hx : (b ++ x :: r)[b.length]? = some x := by
    rw [List.getElem?_append_right le_rfl, Nat.sub_self, List.getElem?_cons_zero]
  rw [initialProofAt, initialEntry, List.zip_map', List.mapM_map]
  apply Fold.mapM_eq_some_map
  intro col _
  simp only [Function.comp_apply, List.getElem?_map, hx, getElem?_entriesFrom, Option.map_some,
    Option.bind_eq_bind, Option.bind_some, Option.pure_def]

variable (permute capHeight cols) in
/-- The openings of the queries, oracle by oracle. -/
lemma pushed_initialTreesProof (xs : List ℕ) :
    pushed cols.length ((xs.map fun x => (x, roundOf permute capHeight cols ls x)).map fun q =>
        q.2.initialTreesProof.map fun p => (q.1, p)) =
      some (cols.map fun col => xs.map fun x =>
        (x, col.leaf x, proofOf (col.path permute capHeight x))) := by
  rw [← pushed_map cols xs fun col x => (x, col.leaf x, proofOf (col.path permute capHeight x)),
    List.map_map]
  simp only [Function.comp_def, roundOf, initialOf, List.map_map]

variable (permute capHeight) in
/-- The proofs of the oracles are compressed. -/
lemma mapM_compress_initial {xs : List ℕ} (hne : xs ≠ [])
    (hshift : ∀ col ∈ cols, col.shift = 0)
    (hindex : ∀ col ∈ cols, ∀ x ∈ xs, x < 2 ^ col.height)
    (hcap : ∀ col ∈ cols, capHeight ≤ col.height) :
    (cols.map fun col => xs.map fun x =>
        (x, col.leaf x, proofOf (col.path permute capHeight x))).mapM (fun tree =>
          compressMerkleProofs capHeight (tree.map (·.1)) (tree.map (·.2.2))) =
      some (cols.map fun col => (entriesFrom col.node (col.kept permute capHeight xs) []
        xs).map fun e => proofOf e.2) := by
  rw [List.mapM_map]
  apply Fold.mapM_eq_some_map
  intro col hcol
  have hbounds : ∀ x ∈ xs, x >>> col.shift < 2 ^ col.height := by
    rw [hshift col hcol]
    exact hindex col hcol
  have hspec := Column.compress permute hbounds (hcap col hcol) hne
  rw [hshift col hcol] at hspec
  simp only [Function.comp_apply, List.map_map, Function.comp_def]
  exact hspec

variable (permute) in
/-- The proofs of the foldings are compressed. -/
lemma mapM_compress_steps {ls : List Level} {xs : List ℕ} (hne : xs ≠ [])
    (hindex : ∀ l ∈ ls, ∀ x ∈ xs, x >>> l.column.shift < 2 ^ l.column.height)
    (hcap : ∀ l ∈ ls, capHeight ≤ l.column.height) :
    (ls.map fun l => xs.map fun x =>
        (x >>> l.column.shift, l.erased permute capHeight x)).mapM (fun tree =>
          compressMerkleProofs capHeight (tree.map (·.1)) (tree.map (·.2.merkleProof))) =
      some (ls.map fun l => (entriesFrom l.column.node (l.column.kept permute capHeight xs) []
        xs).map fun e => proofOf e.2) := by
  rw [List.mapM_map]
  apply Fold.mapM_eq_some_map
  intro l hl
  have hspec := Column.compress permute (hindex l hl) (hcap l hl) hne
  simp only [Function.comp_apply, List.map_map, Function.comp_def]
  exact hspec

end Compressed

section Compress

variable {permute : (Fin 12 → GoldilocksField) → Fin 12 → GoldilocksField}
  {c : CommonCircuitData} {w w' : Codeword} {trees : List (MerkleTree GoldilocksField)}
  {betas : List QuadraticExtension}
  (h : Foldings permute c.capHeight w c.reductionArityBits trees betas w')
  {cols : List Column} {xs : List ℕ}

include h

/-- The loop over the queries builds the maps. -/
lemma Foldings.foldlM_insertQuery (cols : List Column) (b rest : List ℕ) (hxs : xs = b ++ rest) :
    (rest.zipIdx b.length).foldlM
        (insertQuery c.reductionArityBits
          (cols.map fun col => xs.map fun x =>
            (x, col.leaf x, proofOf (col.path permute c.capHeight x)))
          (cols.map fun col => (entriesFrom col.node (col.kept permute c.capHeight xs) []
            xs).map fun e => proofOf e.2)
          ((levelsOf w c.reductionArityBits betas 0).map fun l => xs.map fun x =>
            (x >>> l.column.shift, l.erased permute c.capHeight x))
          ((levelsOf w c.reductionArityBits betas 0).map fun l => (entriesFrom l.column.node
            (l.column.kept permute c.capHeight xs) [] xs).map fun e => proofOf e.2))
        (initialMapOf permute c.capHeight cols xs b,
          (levelsOf w c.reductionArityBits betas 0).map (·.mapOf permute c.capHeight xs b)) =
      some (initialMapOf permute c.capHeight cols xs xs,
        (levelsOf w c.reductionArityBits betas 0).map (·.mapOf permute c.capHeight xs xs)) := by
  induction rest generalizing b with
  | nil =>
    rw [List.append_nil] at hxs
    rw [hxs]
    rfl
  | cons x rest ih =>
    have hnext := ih (b ++ [x]) (by rw [hxs, List.append_assoc]; rfl)
    have hinsert := h.insertSteps_eq (s := 0) (x := x) (b := b) (r := rest)
    rw [← hxs, Nat.shiftRight_zero] at hinsert
    have hinitial : initialProofAt b.length (cols.map fun col => xs.map fun y =>
          (y, col.leaf y, proofOf (col.path permute c.capHeight y)))
        (cols.map fun col => (entriesFrom col.node (col.kept permute c.capHeight xs) []
          xs).map fun e => proofOf e.2) = some (initialEntry permute c.capHeight cols xs b x) := by
      rw [hxs]
      exact initialProofAt_eq
    have hmap : orInsert (initialMapOf permute c.capHeight cols xs b) x
        (initialEntry permute c.capHeight cols xs b x) =
          initialMapOf permute c.capHeight cols xs (b ++ [x]) := by
      rw [initialMapOf, initialMapOf, entriesFrom_append, List.foldl_append]
      rfl
    rw [List.length_append, List.length_singleton] at hnext
    rw [List.zipIdx_cons, List.foldlM_cons, insertQuery, hinitial]
    simp only [Option.bind_eq_bind, Option.bind_some, hinsert, Option.pure_def, hmap]
    exact hnext

/-- What can be inferred is removed from the steps of all queries. -/
lemma Foldings.mapM_removeInferred (cols : List Column) (xs : List ℕ) :
    (xs.map fun x => (x, roundOf permute c.capHeight cols
        (levelsOf w c.reductionArityBits betas 0) x)).mapM (fun q =>
          removeInferred c.reductionArityBits q.2.steps q.1) =
      some (xs.map fun x => (levelsOf w c.reductionArityBits betas 0).map fun l =>
        (x >>> l.column.shift, l.erased permute c.capHeight x)) := by
  rw [List.mapM_map]
  apply Fold.mapM_eq_some_map
  intro x _
  exact h.removeInferred_eq 0 x

/-- The steps of the queries, folding by folding. -/
lemma Foldings.pushed_erased (xs : List ℕ) :
    pushed c.reductionArityBits.length (xs.map fun x =>
        (levelsOf w c.reductionArityBits betas 0).map fun l =>
          (x >>> l.column.shift, l.erased permute c.capHeight x)) =
      some ((levelsOf w c.reductionArityBits betas 0).map fun l => xs.map fun x =>
        (x >>> l.column.shift, l.erased permute c.capHeight x)) := by
  rw [← h.length_levelsOf 0]
  exact pushed_map _ xs _

/-- The proof of the prover is compressed to the maps. -/
lemma Foldings.compressFriProof_eq (hcap : c.reductionArityBits.sum + c.capHeight ≤ w.bits)
    (hindex : ∀ x ∈ xs, x < 2 ^ w.bits) (hne : xs ≠ [])
    (hshift : ∀ col ∈ cols, col.shift = 0) (hheight : ∀ col ∈ cols, col.height = w.bits)
    {proof : FriProof GoldilocksField}
    (hrounds : proof.queryRoundProofs =
      xs.map (roundOf permute c.capHeight cols (levelsOf w c.reductionArityBits betas 0))) :
    c.compressFriProof xs proof = some
      { commitPhaseMerkleCaps := proof.commitPhaseMerkleCaps
        queryRoundProofs :=
          { indices := xs
            initialTreesProofs := initialMapOf permute c.capHeight cols xs xs
            steps := (levelsOf w c.reductionArityBits betas 0).map
              (·.mapOf permute c.capHeight xs xs) }
        finalPoly := proof.finalPoly
        powWitness := proof.powWitness } := by
  set ls := levelsOf w c.reductionArityBits betas 0 with hls
  obtain ⟨first, rest, hcons⟩ := List.exists_cons_of_ne_nil hne
  have hhead : proof.queryRoundProofs.head? = some (roundOf permute c.capHeight cols ls first) := by
    rw [hrounds, hcons]
    rfl
  have hlength : (roundOf permute c.capHeight cols ls first).initialTreesProof.length =
      cols.length := List.length_map _
  have hqueries : xs.zip proof.queryRoundProofs =
      xs.map fun x => (x, roundOf permute c.capHeight cols ls x) := by
    rw [hrounds, List.zip_map_right, List.zip, List.zipWith_self, List.map_map]
    rfl
  have hremoved := h.mapM_removeInferred cols xs
  have hsteps := h.pushed_erased xs
  have hbounds := h.bounds_of_mem hcap hindex
  rw [← hls] at hremoved hsteps hbounds
  have hcompress := mapM_compress_initial permute c.capHeight hne hshift
    (fun col hcol x hx => (hheight col hcol).symm ▸ hindex x hx)
    (fun col hcol => by
      rw [hheight col hcol]
      omega)
  have hcompress_steps := mapM_compress_steps permute hne (fun l hl => (hbounds l hl).1)
    (fun l hl => (hbounds l hl).2)
  have hnil : ls.map (·.mapOf permute c.capHeight xs []) =
      List.replicate c.reductionArityBits.length [] := by
    rw [← h.length_levelsOf 0, ← hls]
    exact List.map_const
  have hloop := h.foldlM_insertQuery cols [] xs (List.nil_append xs).symm
  rw [← hls, hnil] at hloop
  rw [CommonCircuitData.compressFriProof]
  simp only [hhead, Option.bind_eq_bind, Option.bind_some, hlength, hqueries,
    pushed_initialTreesProof, hremoved, hsteps, hcompress, hcompress_steps, Option.pure_def]
  exact (congrArg (Option.bind · _) hloop).trans rfl

end Compress

end MegaZK
