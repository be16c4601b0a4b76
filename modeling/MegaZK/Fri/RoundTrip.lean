import MegaZK.Fri.CompressedProof

/-! # Compressed FRI proofs and back

`get_inferred_elements` follows the foldings from the leaves that a compressed proof keeps, and
`decompress` consumes what it finds in the same order: a compressed proof of the prover becomes that
proof again. -/

namespace MegaZK

open Horner
open scoped QuadraticField

/-! ### What the two loops keep -/

lemma insertIdx_eraseIdx_of_getElem? {α : Type} {l : List α} {k : ℕ} {a : α}
    (h : l[k]? = some a) : (l.eraseIdx k).insertIdx k a = l := by
  obtain ⟨hk, rfl⟩ := List.getElem?_eq_some_iff.mp h
  exact List.insertIdx_eraseIdx_getElem hk

namespace Level

variable {permute : (Fin 12 → GoldilocksField) → Fin 12 → GoldilocksField} {capHeight : ℕ}
  (l : Level)

/-- The indices that the queries of `before` have seen. -/
def Seen (before : List ℕ) (seen : List ℕ) : Prop :=
  ∀ y, y ∈ seen ↔ ∃ x ∈ before, x >>> l.column.shift = y

/-- The evaluations that the queries of `before` have reconstructed. -/
def Reconstructed (before : List ℕ)
    (evals : List (ℕ × List (GoldilocksField × GoldilocksField))) : Prop :=
  ∀ y, evals.lookup y =
    if ∃ x ∈ before, x >>> l.column.shift = y then some (l.evalsAt y) else none

variable {l} {before : List ℕ} {x : ℕ}

lemma Seen.concat_of_mem {seen : List ℕ} (h : l.Seen before seen)
    (hx : ∃ y ∈ before, y >>> l.column.shift = x >>> l.column.shift) :
    l.Seen (before ++ [x]) seen := by
  intro y
  rw [h y]
  constructor
  · rintro ⟨z, hz, rfl⟩
    exact ⟨z, List.mem_append_left _ hz, rfl⟩
  · rintro ⟨z, hz, rfl⟩
    rcases List.mem_append.mp hz with hz | hz
    · exact ⟨z, hz, rfl⟩
    · rwa [List.mem_singleton.mp hz]

lemma Seen.concat {seen : List ℕ} (h : l.Seen before seen) :
    l.Seen (before ++ [x]) ((x >>> l.column.shift) :: seen) := by
  intro y
  rw [List.mem_cons, h y]
  simp only [List.mem_append, List.mem_singleton, or_and_right, exists_or, exists_eq_left]
  rw [or_comm, eq_comm]

lemma Reconstructed.concat_of_mem
    {evals : List (ℕ × List (GoldilocksField × GoldilocksField))} (h : l.Reconstructed before evals)
    (hx : ∃ y ∈ before, y >>> l.column.shift = x >>> l.column.shift) :
    l.Reconstructed (before ++ [x]) evals := by
  intro y
  rw [h y]
  congr 1
  simp only [List.mem_append, List.mem_singleton, or_and_right, exists_or, exists_eq_left,
    eq_iff_iff]
  constructor
  · exact Or.inl
  · rintro (h | rfl)
    · exact h
    · exact hx

lemma Reconstructed.concat {evals : List (ℕ × List (GoldilocksField × GoldilocksField))}
    (h : l.Reconstructed before evals) :
    l.Reconstructed (before ++ [x])
      ((x >>> l.column.shift, l.evalsAt (x >>> l.column.shift)) :: evals) := by
  intro y
  rw [List.lookup_cons]
  by_cases hy : y = x >>> l.column.shift
  · subst hy
    rw [beq_self_eq_true, if_pos ⟨x, by simp, rfl⟩]
  · rw [beq_false_of_ne hy]
    refine (h y).trans ?_
    congr 1
    simp only [List.mem_append, List.mem_singleton, or_and_right, exists_or, exists_eq_left,
      Ne.symm hy, or_false]

lemma Reconstructed.lookup_of_mem {evals : List (ℕ × List (GoldilocksField × GoldilocksField))}
    (h : l.Reconstructed before evals) {y : ℕ} (hy : y ∈ before)
    (heq : y >>> l.column.shift = x >>> l.column.shift) :
    evals.lookup (x >>> l.column.shift) = some (l.evalsAt (x >>> l.column.shift)) := by
  rw [h, if_pos ⟨y, hy, heq⟩]

lemma Reconstructed.lookup_of_new {evals : List (ℕ × List (GoldilocksField × GoldilocksField))}
    (h : l.Reconstructed before evals)
    (hnew : ∀ y ∈ before, y >>> l.column.shift ≠ x >>> l.column.shift) :
    evals.lookup (x >>> l.column.shift) = none := by
  rw [h, if_neg (by simpa using hnew)]

variable (permute capHeight) in
/-- The first query of a leaf finds its own entry. -/
lemma lookup_mapOf_first {r : List ℕ}
    (hnew : ∀ y ∈ before, y >>> l.column.shift ≠ x >>> l.column.shift) :
    (l.mapOf permute capHeight (before ++ x :: r) (before ++ x :: r)).lookup
        (x >>> l.column.shift) =
      some (l.entry permute capHeight (before ++ x :: r) before x) := by
  rw [mapOf, lookup_foldl_orInsert, List.lookup_nil, Option.none_or]
  exact lookup_entriesFrom_first _ _ hnew r

variable (permute capHeight l) in
lemma exists_lookup_mapOf {xs : List ℕ} (hx : x ∈ xs) :
    ∃ e, (l.mapOf permute capHeight xs xs).lookup (x >>> l.column.shift) = some e := by
  rw [mapOf]
  simp only [lookup_foldl_orInsert, List.lookup_nil, Option.none_or]
  exact exists_lookup_entriesFrom (· >>> l.column.shift) _ hx

lemma position_lt : l.position x < 2 ^ l.arityBits := and_one_shiftLeft_sub_one_lt _ _

variable (l) in
lemma shiftRight_shiftRight (x : ℕ) : x >>> l.start >>> l.arityBits = x >>> l.column.shift :=
  (Nat.shiftRight_add x _ _).symm

/-- The evaluation that can be inferred. -/
lemma getElem?_leafValues :
    (l.codeword.leafValues l.arityBits (x >>> l.column.shift))[l.position x]? =
      some (l.codeword.value (x >>> l.start)) := by
  rw [← l.shiftRight_shiftRight]
  exact l.codeword.getElem?_leafValues _

/-- The reconstructed evaluations are the leaf. -/
lemma flatten_evalsAt (hx : x >>> l.column.shift < 2 ^ l.column.height) :
    flatten ((l.evalsAt (x >>> l.column.shift)).map extensionOf) = l.column.leaf x := by
  have hid : extensionOf ∘ pairOf = id := rfl
  rw [evalsAt, List.map_map, hid, List.map_id]
  exact (l.codeword.leaves_getD l.arityBits hx).symm

lemma length_erasedEvals : (l.erasedEvals x).length = 2 ^ l.arityBits - 1 := by
  have hlen : (l.evalsAt (x >>> l.column.shift)).length = 2 ^ l.arityBits := by
    simp [evalsAt, Codeword.leafValues]
  rw [erasedEvals, List.length_eraseIdx_of_lt (hlen ▸ position_lt), hlen]

lemma position_le_length : l.position x ≤ (l.erasedEvals x).length := by
  have hlt := l.position_lt (x := x)
  rw [length_erasedEvals]
  omega

/-- The inferred evaluation restores the values of the leaf. -/
lemma insertIdx_leafValues :
    ((l.erasedEvals x).map extensionOf).insertIdx (l.position x)
        (l.codeword.value (x >>> l.start)) =
      l.codeword.leafValues l.arityBits (x >>> l.column.shift) := by
  have hid : extensionOf ∘ pairOf = id := rfl
  rw [erasedEvals, evalsAt, ← List.eraseIdx_map, List.map_map, hid, List.map_id]
  exact insertIdx_eraseIdx_of_getElem? getElem?_leafValues

lemma insertIdx_evalsAt :
    (l.erasedEvals x).insertIdx (l.position x) (pairOf (l.codeword.value (x >>> l.start))) =
      l.evalsAt (x >>> l.column.shift) := by
  rw [erasedEvals]
  refine insertIdx_eraseIdx_of_getElem? ?_
  rw [evalsAt, List.getElem?_map, getElem?_leafValues]
  rfl

/-- The step of the prover, from the leaf that was reconstructed. -/
lemma step_eq (hx : x >>> l.column.shift < 2 ^ l.column.height) :
    l.step permute capHeight x =
      { evals := unflatten (l.column.leaf x)
        merkleProof := proofOf (l.column.path permute capHeight x) } := by
  have hleaf : l.column.leaf x =
      flatten (l.codeword.leafValues l.arityBits (x >>> l.column.shift)) :=
    l.codeword.leaves_getD l.arityBits hx
  rw [step, hleaf, evalsAt, Codeword.leafValues, unflatten_flatten_map_range, List.map_map]
  rfl

/-! ### One level of the loops -/

section Step

variable {arities : List ℕ} {betas : List QuadraticExtension}
  {maps : List (List (ℕ × FriQueryStep GoldilocksField))} {r : List ℕ}

/-- The loop stops at a leaf that was seen. -/
lemma inferredSteps_of_mem {seen : List ℕ} (hseen : x >>> l.column.shift ∈ seen)
    (m : List (ℕ × FriQueryStep GoldilocksField)) (seens : List (List ℕ))
    (subgroupX : GoldilocksField) (oldEval : QuadraticExtension) :
    inferredSteps (l.arityBits :: arities) betas (m :: maps) (seen :: seens) (x >>> l.start)
      subgroupX oldEval = some ([], seen :: seens) := by
  rw [inferredSteps, l.shiftRight_shiftRight, if_pos hseen]
  rfl

/-- The value of a query with a new leaf is inferred. The loop goes on with the folded codeword. -/
lemma inferredSteps_of_new (ha : l.arityBits ≤ l.codeword.bits) (hbits : l.codeword.bits ≤ 32)
    (hshift : l.codeword.shift ≠ 0)
    (hnew : ∀ y ∈ before, y >>> l.column.shift ≠ x >>> l.column.shift) {seen : List ℕ}
    (hseen : x >>> l.column.shift ∉ seen) {seens : List (List ℕ)} (beta : QuadraticExtension) :
    inferredSteps (l.arityBits :: arities) (beta :: betas)
        (l.mapOf permute capHeight (before ++ x :: r) (before ++ x :: r) :: maps) (seen :: seens)
        (x >>> l.start) (l.codeword.point (x >>> l.start)) (l.codeword.value (x >>> l.start)) =
      (inferredSteps arities betas maps seens (x >>> l.column.shift)
        ((l.codeword.fold l.arityBits beta).point (x >>> l.column.shift))
        ((l.codeword.fold l.arityBits beta).value (x >>> l.column.shift))).map fun p =>
          (l.codeword.value (x >>> l.start) :: p.1, (x >>> l.column.shift :: seen) :: p.2) := by
  have hmask : (x >>> l.start) &&& (1 <<< l.arityBits - 1) = l.position x := rfl
  have heval := l.codeword.computeEvaluation_point ha hbits (x >>> l.start) beta hshift
  have hpoint := l.codeword.squareTimes_point ha hbits (x >>> l.start) beta
  rw [l.shiftRight_shiftRight, hmask] at heval
  rw [l.shiftRight_shiftRight] at hpoint
  rw [inferredSteps, l.shiftRight_shiftRight, if_neg hseen,
    lookup_mapOf_first permute capHeight hnew]
  simp only [Option.bind_eq_bind, Option.bind_some, guard, List.head?_cons, List.tail_cons, hmask,
    entry, erased, if_pos l.position_le_length, insertIdx_leafValues, heval, hpoint,
    Option.pure_def]
  rw [Option.map_eq_bind]
  rfl

/-- The inferred value completes a new leaf. -/
lemma insertInferred_of_new (hx : x >>> l.column.shift < 2 ^ l.column.height)
    (hnew : ∀ y ∈ before, y >>> l.column.shift ≠ x >>> l.column.shift)
    {evals : List (ℕ × List (GoldilocksField × GoldilocksField))}
    (hevals : l.Reconstructed before evals)
    {depths : List (List (ℕ × List (GoldilocksField × GoldilocksField)))}
    {inferred : List QuadraticExtension} :
    insertInferred (l.arityBits :: arities)
        (l.mapOf permute capHeight (before ++ x :: r) (before ++ x :: r) :: maps)
        (evals :: depths) (l.codeword.value (x >>> l.start) :: inferred) (x >>> l.start) =
      (insertInferred arities maps depths inferred (x >>> l.column.shift)).map fun p =>
        ((x >>> l.column.shift, l.column.leaf x,
            proofOf (l.column.kept permute capHeight (before ++ x :: r) before x)) :: p.1,
          ((x >>> l.column.shift, l.evalsAt (x >>> l.column.shift)) :: evals) :: p.2.1, p.2.2) := by
  have hmask : (x >>> l.start) &&& (1 <<< l.arityBits - 1) = l.position x := rfl
  rw [insertInferred, l.shiftRight_shiftRight, lookup_mapOf_first permute capHeight hnew]
  simp only [Option.bind_eq_bind, Option.bind_some, hevals.lookup_of_new hnew, guard,
    List.head?_cons, List.tail_cons, hmask, entry, erased, if_pos l.position_le_length,
    insertIdx_evalsAt, l.flatten_evalsAt hx, Option.pure_def]
  rw [Option.map_eq_bind]
  rfl

variable (permute capHeight r) in
/-- A leaf that was reconstructed before takes no inferred value. -/
lemma insertInferred_of_mem (hx : x >>> l.column.shift < 2 ^ l.column.height) {y : ℕ}
    (hy : y ∈ before) (heq : y >>> l.column.shift = x >>> l.column.shift) :
    ∃ merkleProof, ∀ {evals : List (ℕ × List (GoldilocksField × GoldilocksField))},
      l.Reconstructed before evals →
      ∀ (depths : List (List (ℕ × List (GoldilocksField × GoldilocksField))))
        (inferred : List QuadraticExtension),
        insertInferred (l.arityBits :: arities)
            (l.mapOf permute capHeight (before ++ x :: r) (before ++ x :: r) :: maps)
            (evals :: depths) inferred (x >>> l.start) =
          (insertInferred arities maps depths inferred (x >>> l.column.shift)).map fun p =>
            ((x >>> l.column.shift, l.column.leaf x, merkleProof) :: p.1, evals :: p.2.1, p.2.2) := by
  obtain ⟨e, he⟩ := l.exists_lookup_mapOf permute capHeight
    (List.mem_append_right before (List.mem_cons_self (a := x) (l := r)))
  refine ⟨e.merkleProof, fun hevals depths inferred => ?_⟩
  rw [insertInferred, l.shiftRight_shiftRight, he]
  simp only [Option.bind_eq_bind, Option.bind_some, hevals.lookup_of_mem hy heq,
    l.flatten_evalsAt hx, Option.pure_def]
  rw [Option.map_eq_bind]
  rfl

end Step

end Level

/-! ### The loops over the levels -/

lemma mapM_of_forall₂ {α β γ : Type} {R : α → β → Prop} {as : List α} {bs : List β}
    {f : β → Option γ} {g : α → γ} (h : List.Forall₂ R as bs)
    (hf : ∀ a ∈ as, ∀ b, R a b → f b = some (g a)) : bs.mapM f = some (as.map g) := by
  induction h with
  | nil => rfl
  | cons hr _ ih =>
    obtain ⟨hfirst, hf⟩ := List.forall_mem_cons.mp hf
    rw [List.mapM_cons, hfirst _ hr, ih hf]
    rfl

lemma forall₂_imp_of_mem {α β : Type} {R S : α → β → Prop} {as : List α} {bs : List β}
    (h : List.Forall₂ R as bs) (hmem : ∀ a ∈ as, ∀ b, R a b → S a b) : List.Forall₂ S as bs := by
  induction h with
  | nil => exact .nil
  | cons hr _ ih =>
    obtain ⟨hfirst, hmem⟩ := List.forall_mem_cons.mp hmem
    exact .cons (hfirst _ hr) (ih hmem)

section Foldings

variable {permute : (Fin 12 → GoldilocksField) → Fin 12 → GoldilocksField} {capHeight : ℕ}
  {w w' : Codeword} {arities : List ℕ} {trees : List (MerkleTree GoldilocksField)}
  {betas : List QuadraticExtension} (h : Foldings permute capHeight w arities trees betas w')
  {before r : List ℕ} {x : ℕ}

include h

/-- Before the first query nothing was seen. -/
lemma Foldings.seen_nil (s : ℕ) : List.Forall₂ (fun l => l.Seen []) (levelsOf w arities betas s)
    (List.replicate arities.length []) := by
  rw [← h.length_levelsOf s, ← List.map_const', List.forall₂_map_right_iff]
  exact List.forall₂_same.mpr fun l _ y => by simp

lemma Foldings.reconstructed_nil (s : ℕ) :
    List.Forall₂ (fun l => l.Reconstructed []) (levelsOf w arities betas s)
      (List.replicate arities.length []) := by
  rw [← h.length_levelsOf s, ← List.map_const', List.forall₂_map_right_iff]
  exact List.forall₂_same.mpr fun l _ y => by simp

/-- Once an index was seen, all later levels have seen it. -/
lemma Foldings.seen_later {s y : ℕ} (heq : y >>> s = x >>> s) :
    ∀ l ∈ levelsOf w arities betas s, y >>> l.column.shift = x >>> l.column.shift := by
  intro l hl
  have hle : s ≤ l.column.shift := (h.le_shift l hl).trans (Nat.le_add_right _ _)
  rw [← Nat.add_sub_cancel' hle, Nat.shiftRight_add, Nat.shiftRight_add, heq]

/-- A seen index takes nothing of the inferred elements. -/
lemma Foldings.insertInferred_of_seen {s : ℕ} (hx : x >>> s < 2 ^ w.bits) {y : ℕ}
    (hy : y ∈ before)
    (hseen : ∀ l ∈ levelsOf w arities betas s, y >>> l.column.shift = x >>> l.column.shift)
    {depths : List (List (ℕ × List (GoldilocksField × GoldilocksField)))}
    (hdepths : List.Forall₂ (fun l => l.Reconstructed before) (levelsOf w arities betas s)
      depths) :
    ∃ row, (∀ inferred, insertInferred arities ((levelsOf w arities betas s).map
        (·.mapOf permute capHeight (before ++ x :: r) (before ++ x :: r))) depths inferred
        (x >>> s) = some (row, depths, inferred)) ∧
      List.Forall₂ (fun col => col.Opens permute capHeight (before ++ x :: r) before x)
        ((levelsOf w arities betas s).map (·.column)) row := by
  induction h generalizing s depths with
  | done w =>
    cases hdepths
    exact ⟨[], fun _ => rfl, .nil⟩
  | @fold w w' a arities tree trees beta betas htree _ ih =>
    rw [levelsOf] at hdepths hseen ⊢
    cases hdepths with
    | @cons _ evals _ depths hevals hdepths =>
      obtain ⟨hfirst, hlater⟩ := List.forall_mem_cons.mp hseen
      set l : Level := ⟨s, a, w⟩ with hl
      have hnext : x >>> l.column.shift < 2 ^ l.column.height := by
        change x >>> (s + a) < _
        rw [Nat.shiftRight_add]
        exact MerklePath.shiftRight_lt hx
      obtain ⟨row, hrow, hopens⟩ := ih hnext hlater hdepths
      obtain ⟨merkleProof, hstep⟩ := l.insertInferred_of_mem permute capHeight r hnext hy hfirst
      refine ⟨(x >>> l.column.shift, l.column.leaf x, merkleProof) :: row, fun inferred => ?_,
        .cons ⟨rfl, rfl, ?_⟩ hopens⟩
      · exact (hstep hevals depths inferred).trans (congrArg (Option.map _) (hrow inferred))
      · rw [l.column.kept_of_mem hy hfirst]
        exact List.nil_prefix

/-- What one query infers is what `decompress` takes for it. -/
lemma Foldings.inferredSteps_eq (hcap : arities.sum + capHeight ≤ w.bits) (hbits : w.bits ≤ 32)
    (hshift : w.shift ≠ 0) {s : ℕ} (hx : x >>> s < 2 ^ w.bits) {seen : List (List ℕ)}
    (hseen : List.Forall₂ (fun l => l.Seen before) (levelsOf w arities betas s) seen)
    {depths : List (List (ℕ × List (GoldilocksField × GoldilocksField)))}
    (hdepths : List.Forall₂ (fun l => l.Reconstructed before) (levelsOf w arities betas s)
      depths) :
    ∃ inferred seen' depths' row,
      inferredSteps arities betas ((levelsOf w arities betas s).map
          (·.mapOf permute capHeight (before ++ x :: r) (before ++ x :: r))) seen (x >>> s)
          (w.point (x >>> s)) (w.value (x >>> s)) = some (inferred, seen') ∧
      (∀ more, insertInferred arities ((levelsOf w arities betas s).map
          (·.mapOf permute capHeight (before ++ x :: r) (before ++ x :: r))) depths
          (inferred ++ more) (x >>> s) = some (row, depths', more)) ∧
      List.Forall₂ (fun l => l.Seen (before ++ [x])) (levelsOf w arities betas s) seen' ∧
      List.Forall₂ (fun l => l.Reconstructed (before ++ [x])) (levelsOf w arities betas s)
        depths' ∧
      List.Forall₂ (fun col => col.Opens permute capHeight (before ++ x :: r) before x)
        ((levelsOf w arities betas s).map (·.column)) row := by
  induction h generalizing s seen depths with
  | done w =>
    cases hseen
    cases hdepths
    exact ⟨[], [], [], [], rfl, fun more => rfl, .nil, .nil, .nil⟩
  | @fold w w' a arities tree trees beta betas htree hrest ih =>
    have hall := Foldings.fold htree hrest
    rw [levelsOf] at hseen hdepths ⊢
    cases hseen with
    | @cons _ seen _ seens hfirst hseens =>
    cases hdepths with
    | @cons _ evals _ depths hevals hdepths =>
    set l : Level := ⟨s, a, w⟩ with hl
    have hnext : x >>> l.column.shift < 2 ^ l.column.height := by
      change x >>> (s + a) < _
      rw [Nat.shiftRight_add]
      exact MerklePath.shiftRight_lt hx
    rw [List.sum_cons] at hcap
    by_cases hmem : x >>> l.column.shift ∈ seen
    · -- the loop stops, and every later index was seen
      obtain ⟨y, hy, heq⟩ := (hfirst _).mp hmem
      have hlater : ∀ l' ∈ l :: levelsOf (w.fold a beta) arities betas (s + a),
          y >>> l'.column.shift = x >>> l'.column.shift :=
        List.forall_mem_cons.mpr ⟨heq, hrest.seen_later heq⟩
      have hdone : ∀ l' ∈ l :: levelsOf (w.fold a beta) arities betas (s + a),
          ∃ z ∈ before, z >>> l'.column.shift = x >>> l'.column.shift :=
        fun l' hl' => ⟨y, hy, hlater l' hl'⟩
      obtain ⟨row, hrow, hopens⟩ :=
        hall.insertInferred_of_seen hx hy hlater (.cons hevals hdepths)
      exact ⟨[], _, _, row, Level.inferredSteps_of_mem hmem _ _ _ _, hrow,
        forall₂_imp_of_mem (.cons hfirst hseens) fun l' hl' _ h => h.concat_of_mem (hdone l' hl'),
        forall₂_imp_of_mem (.cons hevals hdepths) fun l' hl' _ h => h.concat_of_mem (hdone l' hl'),
        hopens⟩
    · -- the value of the query is inferred
      have hnew : ∀ y ∈ before, y >>> l.column.shift ≠ x >>> l.column.shift :=
        fun y hy heq => hmem ((hfirst _).mpr ⟨y, hy, heq⟩)
      obtain ⟨inferred, seen', depths', row, hinferred, hrow, hseen', hdepths', hopens⟩ :=
        ih (by change _ ≤ w.bits - a; omega) (by change w.bits - a ≤ 32; omega)
          (pow_ne_zero _ hshift) hnext hseens hdepths
      refine ⟨w.value (x >>> s) :: inferred, _, _, (x >>> l.column.shift, l.column.leaf x,
        proofOf (l.column.kept permute capHeight (before ++ x :: r) before x)) :: row, ?_,
        fun more => ?_, .cons hfirst.concat hseen', .cons hevals.concat hdepths',
        .cons ⟨rfl, rfl, ?_⟩ hopens⟩
      · exact (l.inferredSteps_of_new (by change a ≤ w.bits; omega) hbits hshift hnew hmem
          beta).trans (congrArg (Option.map _) hinferred)
      · exact (l.insertInferred_of_new hnext hnew hevals).trans
          (congrArg (Option.map _) (hrow more))
      · rw [map_hashOf_proofOf]

end Foldings

/-! ### The openings of the oracles -/

section Initial

variable {permute : (Fin 12 → GoldilocksField) → Fin 12 → GoldilocksField} {capHeight : ℕ}
  {cols : List Column} {xs before r : List ℕ} {x : ℕ}

variable (permute capHeight cols) in
/-- The first query of an index, or an earlier one of the same. -/
lemma lookup_initialMapOf (hxs : xs = before ++ x :: r) :
    ∃ b, (initialMapOf permute capHeight cols xs xs).lookup x =
        some (initialEntry permute capHeight cols xs b x) ∧ (x ∉ before → b = before) := by
  have hfirst : ∀ {b r' : List ℕ}, xs = b ++ x :: r' → x ∉ b →
      (initialMapOf permute capHeight cols xs xs).lookup x =
        some (initialEntry permute capHeight cols xs b x) := by
    intro b r' hsplit hnew
    rw [initialMapOf]
    simp only [lookup_foldl_orInsert, List.lookup_nil, Option.none_or]
    have hlookup := lookup_entriesFrom_first id (initialEntry permute capHeight cols xs) (x := x)
      (b := b) (fun y hy (heq : y = x) => hnew (heq ▸ hy)) r'
    rwa [← hsplit] at hlookup
  by_cases hmem : x ∈ before
  · obtain ⟨b, r', hsplit, hnew⟩ := List.eq_append_cons_of_mem hmem
    have hxs' : xs = b ++ x :: (r' ++ x :: r) := by
      rw [hxs, hsplit, List.append_assoc, List.cons_append]
    exact ⟨b, hfirst hxs' hnew, fun h => absurd hmem h⟩
  · exact ⟨before, hfirst hxs hmem, fun _ => rfl⟩

/-- What a query opens in the oracles, with the first proof of its index. -/
lemma opens_initialEntry (hshift : ∀ col ∈ cols, col.shift = 0) {b : List ℕ}
    (hb : x ∉ before → b = before) :
    List.Forall₂ (fun col => col.Opens permute capHeight xs before x) cols
      ((initialEntry permute capHeight cols xs b x).map fun p => (x, p)) := by
  rw [initialEntry, List.map_map, List.forall₂_map_right_iff]
  refine List.forall₂_same.mpr fun col hcol => ⟨?_, rfl, ?_⟩
  · rw [hshift col hcol]
    rfl
  · change _ <+: (proofOf (col.kept permute capHeight xs b x)).map hashOf
    rw [map_hashOf_proofOf]
    by_cases hmem : x ∈ before
    · rw [col.kept_of_mem hmem rfl]
      exact List.nil_prefix
    · rw [hb hmem]

variable (permute capHeight cols) in
/-- Every entry has an opening of each oracle. -/
lemma exists_head?_initialMapOf (hne : xs ≠ []) :
    ∃ e, (initialMapOf permute capHeight cols xs xs).head? = some e ∧
      e.2.length = cols.length := by
  obtain ⟨x, rest, hcons⟩ := List.exists_cons_of_ne_nil hne
  obtain ⟨b, hlookup, -⟩ := lookup_initialMapOf permute capHeight cols
    ((List.nil_append _).symm ▸ hcons : xs = [] ++ x :: rest)
  cases hmap : initialMapOf permute capHeight cols xs xs with
  | nil =>
    rw [hmap] at hlookup
    cases hlookup
  | cons e m =>
    refine ⟨e, rfl, ?_⟩
    have hmem : e ∈ initialMapOf permute capHeight cols xs xs := by
      rw [hmap]
      exact List.mem_cons_self
    rcases mem_foldl_orInsert hmem with hnil | hentry
    · cases hnil
    · obtain ⟨b, x, rfl⟩ := mem_entriesFrom hentry
      exact List.length_map _

end Initial

/-! ### The combination of compressed openings -/

section Combine

variable {c : CommonCircuitData} {proof proof' : List (List GoldilocksField × List (List GoldilocksField))}
  (hsame : proof.map (·.1) = proof'.map (·.1))

include hsame

lemma unsaltedEval_congr (p : FriPolynomialInfo) :
    c.unsaltedEval proof p = c.unsaltedEval proof' p := by
  have hget : proof[p.oracleIndex]?.map (·.1) = proof'[p.oracleIndex]?.map (·.1) := by
    rw [← List.getElem?_map, ← List.getElem?_map, hsame]
  rw [CommonCircuitData.unsaltedEval, CommonCircuitData.unsaltedEval]
  cases hp : proof[p.oracleIndex]? with
  | none =>
    rw [hp, Option.map_none, eq_comm, Option.map_eq_none_iff] at hget
    rw [hget]
  | some e =>
    rw [hp, Option.map_some, eq_comm] at hget
    obtain ⟨e', hp', he⟩ := Option.map_eq_some_iff.mp hget
    rw [hp']
    simp only [Option.bind_eq_bind, Option.bind_some, he]

/-- The Merkle proofs do not matter for the combination. -/
lemma friCombineInitial_congr (i : FriInstance c) (alpha : QuadraticExtension)
    (subgroupX : GoldilocksField) (evals : List QuadraticExtension) :
    c.friCombineInitial i proof alpha subgroupX evals =
      c.friCombineInitial i proof' alpha subgroupX evals := by
  have heval : c.unsaltedEval proof = c.unsaltedEval proof' :=
    funext (unsaltedEval_congr hsame)
  have hloop : ∀ batches factor sum, c.combineBatches proof (.C subgroupX) batches factor sum =
      c.combineBatches proof' (.C subgroupX) batches factor sum := by
    intro batches
    induction batches with
    | nil => exact fun _ _ => rfl
    | cons b batches ih =>
      intro factor sum
      rw [CommonCircuitData.combineBatches, CommonCircuitData.combineBatches, heval]
      simp only [ih]
  exact hloop _ _ _

end Combine

/-! ### What the decompressed trees hold -/

section ReadBack

variable {permute : (Fin 12 → GoldilocksField) → Fin 12 → GoldilocksField} {capHeight : ℕ}
  {cols : List Column} {ls : List Level} {xs : List ℕ}
  {initialTrees stepTrees : List (List TreeRow)}
  (hinitial : List.Forall₂ (fun col => col.Opened permute capHeight xs [] xs) cols initialTrees)

include hinitial

/-- The proofs of trees of one height are found. -/
lemma decompress_opened_of_height {height : ℕ} (hheight : ∀ col ∈ cols, col.height = height)
    (hindex : ∀ col ∈ cols, ∀ x ∈ xs, x >>> col.shift < 2 ^ col.height)
    (hcap : ∀ col ∈ cols, capHeight ≤ col.height) :
    initialTrees.mapM (decompressTree permute height capHeight) =
      some (cols.map fun col => xs.map fun x => proofOf (col.path permute capHeight x)) := by
  apply mapM_of_forall₂ hinitial
  intro col hcol tree htree
  rw [← hheight col hcol]
  exact Column.decompress (hindex col hcol) (hcap col hcol) htree.index htree.leaf htree.supplied

variable (hsteps : List.Forall₂ (fun col => col.Opened permute capHeight xs [] xs)
    (ls.map (·.column)) stepTrees)
  (hindex : ∀ l ∈ ls, ∀ x ∈ xs, x >>> l.column.shift < 2 ^ l.column.height)

include hsteps hindex

/-- The round of a query is read back. -/
lemma queryRoundAt_opened {k x : ℕ} (hx : xs[k]? = some x) :
    queryRoundAt k
        (initialTrees.zip (cols.map fun col => xs.map fun x =>
          proofOf (col.path permute capHeight x)))
        (stepTrees.zip ((ls.map (·.column)).map fun col => xs.map fun x =>
          proofOf (col.path permute capHeight x))) =
      some (roundOf permute capHeight cols ls x) := by
  have hread := readBack_opened hinitial (fun col x => proofOf (col.path permute capHeight x))
    Prod.mk hx
  have hread_steps := readBack_opened hsteps
    (fun col x => proofOf (col.path permute capHeight x))
    (fun leaf merkleProof => ({ evals := unflatten leaf, merkleProof } : FriQueryStep _)) hx
  have hback : (ls.map (·.column)).map (fun col =>
        ({ evals := unflatten (col.leaf x)
           merkleProof := proofOf (col.path permute capHeight x) } : FriQueryStep _)) =
      ls.map (·.step permute capHeight x) := by
    rw [List.map_map]
    apply List.map_congr_left
    intro l hl
    exact (l.step_eq (hindex l hl x (List.mem_of_getElem? hx))).symm
  rw [hback] at hread_steps
  rw [queryRoundAt]
  refine (congrArg (Option.bind · _) hread).trans ?_
  rw [Option.bind_some]
  exact (congrArg (Option.bind · _) hread_steps).trans rfl

/-- All rounds are read back. -/
lemma mapM_queryRoundAt :
    ((List.range xs.length).mapM fun k => queryRoundAt k
        (initialTrees.zip (cols.map fun col => xs.map fun x =>
          proofOf (col.path permute capHeight x)))
        (stepTrees.zip ((ls.map (·.column)).map fun col => xs.map fun x =>
          proofOf (col.path permute capHeight x)))) =
      some (xs.map (roundOf permute capHeight cols ls)) := by
  have hget : ∀ k < xs.length, xs[k]? = some (xs.getD k 0) := by
    intro k hk
    rw [List.getD_eq_getElem?_getD, List.getElem?_eq_getElem hk, Option.getD_some]
  rw [Fold.mapM_eq_some_map fun k hk =>
    queryRoundAt_opened hinitial hsteps hindex (hget k (List.mem_range.mp hk))]
  congr 1
  apply List.ext_getElem (by simp)
  intro k hk _
  rw [List.length_map, List.length_range] at hk
  simp [List.getD_eq_getElem?_getD, hk]

end ReadBack

/-! ### The loops over the queries -/

section Queries

variable {permute : (Fin 12 → GoldilocksField) → Fin 12 → GoldilocksField}
  {c : CommonCircuitData} {w w' : Codeword} {trees : List (MerkleTree GoldilocksField)}
  {challenges : FriChallenges}
  (h : Foldings permute c.capHeight w c.reductionArityBits trees challenges.friBetas w')
  (hcap : c.reductionArityBits.sum + c.capHeight ≤ w.bits) (hbits : w.bits ≤ 32)
  (hshift : w.shift ≠ 0) {cols : List Column} (hcols : ∀ col ∈ cols, col.shift = 0) {xs : List ℕ}
  (hindex : ∀ x ∈ xs, x < 2 ^ w.bits)

/-- The maps of a compressed proof. -/
def compressedRounds (permute : (Fin 12 → GoldilocksField) → Fin 12 → GoldilocksField)
    (capHeight : ℕ) (cols : List Column) (ls : List Level) (xs : List ℕ) :
    CompressedFriQueryRounds GoldilocksField where
  indices := xs
  initialTreesProofs := initialMapOf permute capHeight cols xs xs
  steps := ls.map (·.mapOf permute capHeight xs xs)

include h hcap hbits hshift hcols hindex

/-- The queries that are left infer what `decompress` takes for them. -/
lemma Foldings.exists_rows {i : FriInstance c} {evals : List QuadraticExtension}
    (hpoint : ∀ x, w.point x = 7 * primitiveRootOfUnity c.ldeBits ^ reverseBits x c.ldeBits)
    (hvalue : ∀ x ∈ xs, c.friCombineInitial i (initialOf permute c.capHeight cols x)
      challenges.friAlpha (w.point x) evals = some (w.value x)) (before rest : List ℕ)
    (hxs : xs = before ++ rest) {seen : List (List ℕ)}
    (hseen : List.Forall₂ (fun l => l.Seen before)
      (levelsOf w c.reductionArityBits challenges.friBetas 0) seen)
    {depths : List (List (ℕ × List (GoldilocksField × GoldilocksField)))}
    (hdepths : List.Forall₂ (fun l => l.Reconstructed before)
      (levelsOf w c.reductionArityBits challenges.friBetas 0) depths) :
    let ls := levelsOf w c.reductionArityBits challenges.friBetas 0
    let rounds := compressedRounds permute c.capHeight cols ls xs
    ∃ inferred rows, c.inferredRounds i evals challenges rounds rest seen = some inferred ∧
      decompressRows c.reductionArityBits rounds rest depths inferred = some rows ∧
      Rows permute c.capHeight cols xs before rest (rows.map (·.1)) ∧
      Rows permute c.capHeight (ls.map (·.column)) xs before rest (rows.map (·.2)) := by
  intro ls rounds
  induction rest generalizing before seen depths with
  | nil => exact ⟨[], [], rfl, rfl, .nil, .nil⟩
  | cons x rest ih =>
    have hmem : x ∈ xs := by simp [hxs]
    obtain ⟨b, hlookup, hb⟩ := lookup_initialMapOf permute c.capHeight cols hxs
    have hcombine : c.friCombineInitial i (initialEntry permute c.capHeight cols xs b x)
        challenges.friAlpha (w.point x) evals = some (w.value x) := by
      rw [← hvalue x hmem]
      apply friCombineInitial_congr
      rw [initialEntry, initialOf, List.map_map, List.map_map]
      rfl
    obtain ⟨inferred, seen', depths', row, hinferred, hrow, hseen', hdepths', hopens⟩ :=
      h.inferredSteps_eq (r := rest) hcap hbits hshift (s := 0) (x := x) (hindex x hmem) hseen
        hdepths
    rw [Nat.shiftRight_zero, ← hxs] at hinferred
    obtain ⟨more, rows, hmore, hrows, hinitial, hsteps⟩ :=
      ih (before ++ [x]) (by rw [hxs, List.append_assoc]; rfl) hseen' hdepths'
    have hrow := hrow more
    rw [Nat.shiftRight_zero, ← hxs] at hrow
    rw [← hxs] at hopens
    refine ⟨inferred ++ more,
      ((initialEntry permute c.capHeight cols xs b x).map fun p => (x, p), row) :: rows, ?_, ?_,
      .cons (opens_initialEntry hcols hb) hinitial, .cons hopens hsteps⟩
    · rw [CommonCircuitData.inferredRounds]
      simp only [rounds, compressedRounds, ls, hlookup, Option.bind_eq_bind, Option.bind_some,
        ← hpoint, hcombine, hinferred]
      exact (congrArg (Option.bind · _) hmore).trans rfl
    · rw [decompressRows]
      simp only [rounds, compressedRounds, ls, hlookup, Option.bind_eq_bind, Option.bind_some,
        hrow]
      exact (congrArg (Option.bind · _) hrows).trans rfl

/-- A compressed proof of the prover becomes that proof again. -/
lemma Foldings.decompressFriProof_eq {i : FriInstance c} {evals : List QuadraticExtension}
    (hheight : ∀ col ∈ cols, col.height = c.ldeBits) (hw : w.bits = c.ldeBits)
    (hpoint : ∀ x, w.point x = 7 * primitiveRootOfUnity c.ldeBits ^ reverseBits x c.ldeBits)
    (hvalue : ∀ x ∈ xs, c.friCombineInitial i (initialOf permute c.capHeight cols x)
      challenges.friAlpha (w.point x) evals = some (w.value x)) (hne : xs ≠ [])
    {proof : FriProof GoldilocksField}
    (hrounds : proof.queryRoundProofs = xs.map
      (roundOf permute c.capHeight cols (levelsOf w c.reductionArityBits challenges.friBetas 0))) :
    let ls := levelsOf w c.reductionArityBits challenges.friBetas 0
    let rounds := compressedRounds permute c.capHeight cols ls xs
    ∃ inferred, c.inferredRounds i evals challenges rounds xs
        (List.replicate c.reductionArityBits.length []) = some inferred ∧
      c.decompressFriProof permute xs inferred
        { commitPhaseMerkleCaps := proof.commitPhaseMerkleCaps
          queryRoundProofs := rounds
          finalPoly := proof.finalPoly
          powWitness := proof.powWitness } = some proof := by
  intro ls rounds
  have hlen : ls.length = c.reductionArityBits.length := h.length_levelsOf 0
  obtain ⟨inferred, rows, hinferred, hrows, hinitial, hsteps⟩ :=
    h.exists_rows hcap hbits hshift hcols hindex hpoint hvalue [] xs rfl (h.seen_nil 0)
      (h.reconstructed_nil 0)
  refine ⟨inferred, hinferred, ?_⟩
  obtain ⟨e, hhead, hcount⟩ := exists_head?_initialMapOf permute c.capHeight cols hne
  obtain ⟨initialTrees, hpushed, hopened⟩ := hinitial.opened
  obtain ⟨stepTrees, hpushed_steps, hopened_steps⟩ := hsteps.opened
  rw [← hcount] at hpushed
  rw [List.length_map, hlen] at hpushed_steps
  have hbounds := h.bounds_of_mem hcap hindex
  -- the proofs of all trees
  have hproofs := decompress_opened_of_height hopened hheight
    (fun col hcol x hx => by
      rw [hcols col hcol, hheight col hcol, ← hw]
      exact hindex x hx)
    (fun col hcol => by
      rw [hheight col hcol, ← hw]
      omega)
  have hproofs_steps := decompress_opened hopened_steps
    (List.forall_mem_map.mpr fun l hl => (hbounds l hl).1)
    (List.forall_mem_map.mpr fun l hl => (hbounds l hl).2)
  rw [h.heights 0, hw] at hproofs_steps
  -- the rounds
  have hback := mapM_queryRoundAt hopened hopened_steps fun l hl => (hbounds l hl).1
  rw [← hrounds] at hback
  rw [CommonCircuitData.decompressFriProof]
  simp only [rounds, compressedRounds, hhead, Option.bind_eq_bind, Option.bind_some] at hrows ⊢
  rw [hrows]
  simp only [Option.bind_some, hpushed, hpushed_steps, hproofs, hproofs_steps]
  rw [hback]
  rfl

end Queries

/-! ### Proofs of the prover -/

section Prover

variable {permute : (Fin 12 → GoldilocksField) → Fin 12 → GoldilocksField}
  {c : CommonCircuitData} {i : FriInstance c} {oracles : List PolynomialBatch}

/-- The trees of the oracles. -/
def oracleColumns (c : CommonCircuitData) (oracles : List PolynomialBatch) : List Column :=
  oracles.map fun b => ⟨0, c.ldeBits, b.merkleTree.leaves⟩

/-- The leaf of every oracle, with its proof. -/
lemma initialTreesProof_eq {infos : List FriOracleInfo}
    (horacles : List.Forall₂ (c.Commits permute) infos oracles) {x : ℕ} (hx : x < 2 ^ c.ldeBits) :
    ((oracles.map (·.merkleTree)).mapM fun tree => do
        let leaf ← tree.get x
        let siblings ← tree.prove x
        return (leaf, proofOf siblings)) =
      some (initialOf permute c.capHeight (oracleColumns c oracles) x) := by
  induction horacles with
  | nil => rfl
  | @cons info b infos oracles hb _ ih =>
    obtain ⟨salt, polynomials, -, hlen, hb⟩ := hb
    obtain ⟨-, htree⟩ := PolynomialBatch.fromCoeffs_eq_some hlen hb
    set leaves := (List.range (2 ^ (c.degreeBits + c.rateBits))).map
      (committedLeaf polynomials (c.zeroKnowledge && info.blinding) salt
        (c.degreeBits + c.rateBits)) with hleaves
    have hsize : leaves.length = 2 ^ c.ldeBits := by
      rw [hleaves, List.length_map, List.length_range, CommonCircuitData.ldeBits]
    have hkept : b.merkleTree.leaves = leaves := by
      obtain ⟨_, _, _, htree⟩ := MerkleTree.new_eq_some htree
      rw [htree]
    have hget : b.merkleTree.get x = some (leaves.getD x []) := by
      rw [MerkleTree.get, hkept, List.getD_eq_getElem?_getD,
        List.getElem?_eq_getElem (hsize.symm ▸ hx), Option.getD_some]
    have hcolumns : oracleColumns c (b :: oracles) =
        ⟨0, c.ldeBits, leaves⟩ :: oracleColumns c oracles := by
      rw [← hkept]
      rfl
    rw [List.map_cons, List.mapM_cons, hget, MerkleTree.prove_eq_treePath htree hsize hx, ih,
      hcolumns]
    rfl

/-- The openings of a query combine to the value of the final polynomial. -/
lemma friCombineInitial_initialOf
    (horacles : List.Forall₂ (c.Commits permute) c.friOracles oracles)
    (hpoints : ∀ b ∈ i.batches, ∀ k,
      (.C (7 * primitiveRootOfUnity c.ldeBits ^ k) : QuadraticExtension) ≠ b.point)
    {openings : List (List QuadraticExtension)}
    (hopenings : i.batches.mapM (CommonCircuitData.openBatch oracles) = some openings)
    {fbs : List (FriBatch GoldilocksField)} (hfbs : i.batches.mapM (CommonCircuitData.batchOf oracles) = some fbs)
    {alpha : QuadraticExtension} (hle : (provedFinalPoly alpha fbs).length ≤ 2 ^ c.ldeBits) {x : ℕ}
    (hx : x < 2 ^ c.ldeBits) :
    let w := c.codeword (provedFinalPoly alpha fbs)
    c.friCombineInitial i (initialOf permute c.capHeight (oracleColumns c oracles) x) alpha
      (w.point x) (reducedOpenings openings alpha) = some (w.value x) := by
  intro w
  obtain ⟨initial, hinitial, -, hopens⟩ := exists_initialTreesProof horacles hx
  obtain rfl : initialOf permute c.capHeight (oracleColumns c oracles) x = initial :=
    Option.some.inj ((initialTreesProof_eq horacles hx).symm.trans hinitial)
  have hopens : c.OpensOracles permute oracles x _ := hopens
  have hvalue := combineBatches_eq hopens.opensAt hfbs hopenings (fun b hb => hpoints b hb _)
    ⟨alpha, 0⟩ []
  rw [c.codeword_value hle]
  exact hvalue

/-- The queries of a proof that the prover made, and their rounds. -/
lemma ProvedWith.rounds_eq (horacles : List.Forall₂ (c.Commits permute) c.friOracles oracles)
    {proof : FriProof GoldilocksField} {challenges : FriChallenges}
    {fbs : List (FriBatch GoldilocksField)} {trees : List (MerkleTree GoldilocksField)}
    {w : Codeword} (hrun : ProvedWith permute i oracles proof challenges fbs trees w) :
    (∀ x ∈ challenges.friQueryIndices, x < 2 ^ c.ldeBits) ∧
      proof.queryRoundProofs = challenges.friQueryIndices.map
        (roundOf permute c.capHeight (oracleColumns c oracles)
          (levelsOf (c.codeword (provedFinalPoly challenges.friAlpha fbs)) c.reductionArityBits
            challenges.friBetas 0)) := by
  set ls := levelsOf (c.codeword (provedFinalPoly challenges.friAlpha fbs)) c.reductionArityBits
    challenges.friBetas 0 with hls
  have hround : ∀ q ∈ challenges.friQueryIndices.zip proof.queryRoundProofs,
      q.1 < 2 ^ c.ldeBits ∧
        roundOf permute c.capHeight (oracleColumns c oracles) ls q.1 = q.2 := by
    intro q hq
    obtain ⟨hlt, hquery⟩ := hrun.rounds q hq
    have hsteps := hrun.foldings.querySteps_eq (s := 0) (x := q.1) c.arities_le hlt
    rw [Nat.shiftRight_zero] at hsteps
    rw [friProverQueryRound, initialTreesProof_eq horacles hlt, hsteps] at hquery
    exact ⟨hlt, Option.some.inj hquery⟩
  have hpair : ∀ k (hk : k < challenges.friQueryIndices.length)
      (hk' : k < proof.queryRoundProofs.length),
      (challenges.friQueryIndices[k], proof.queryRoundProofs[k]) ∈
        challenges.friQueryIndices.zip proof.queryRoundProofs := fun k hk hk' =>
    List.mem_iff_getElem?.mpr ⟨k, by simp [hk, hk']⟩
  constructor
  · intro x hx
    obtain ⟨k, hk, rfl⟩ := List.mem_iff_getElem.mp hx
    exact (hround _ (hpair k hk (hrun.indices ▸ hk))).1
  · apply List.ext_getElem
    · rw [List.length_map, hrun.indices]
    · intro k hk hk'
      rw [List.length_map] at hk'
      rw [List.getElem_map, (hround _ (hpair k hk' hk)).2]

end Prover

end MegaZK
