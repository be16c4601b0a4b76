import MegaZK.Permutation.Argument
import MegaZK.Witgen.HostWitness

/-! # The prover of the permutation argument

The columns of `wires_permutation_partial_products_and_zs` pass the checks when the wires respect the
copy constraints, as those of a generated witness do. -/

namespace MegaZK

open Scan

/-! ### Lists of chunks -/

section Chunks

variable {F : Type} [Field F]

lemma chunks_map {α β : Type} (q : ℕ) (f : α → β) (l : List α) :
    chunks q (l.map f) = (chunks q l).map (List.map f) := by
  simp [chunks, List.map_drop, List.map_take]

lemma length_chunks {α : Type} (q : ℕ) (l : List α) :
    (chunks q l).length = (l.length + q - 1) / q := by
  simp [chunks]

@[simp] lemma length_partialProductsFrom (z : F) (qs : List F) :
    (partialProductsFrom z qs).length = qs.length := by
  induction qs generalizing z with
  | nil => rfl
  | cons q qs ih => simp [partialProductsFrom, ih]

/-- The last partial product is the whole product. -/
lemma partialProductsFrom_last (z : F) (qs : List F) {n : ℕ} (hn : qs.length = n + 1) :
    (partialProductsFrom z qs)[n]? = some (z * qs.prod) := by
  induction qs generalizing z n with
  | nil => cases hn
  | cons q qs ih =>
    cases n with
    | zero =>
      obtain rfl := List.length_eq_zero_iff.mp (Nat.succ.inj hn)
      simp [partialProductsFrom]
    | succ n =>
      rw [partialProductsFrom, List.getElem?_cons_succ, ih _ (Nat.succ.inj hn), List.prod_cons,
        mul_assoc]

/-- The accumulators of the prover pass the checks. -/
lemma checks_eq_zero (num den : ℕ → F) (index : List (List ℕ))
    (hden : ∀ l ∈ index, ∀ j ∈ l, den j ≠ 0) (z : F) :
    ∀ t ∈ List.zipWith (fun chunk accs => accs.1 * chunk.1.prod - accs.2 * chunk.2.prod)
      ((index.map (List.map num)).zip (index.map (List.map den)))
      ((z :: partialProductsFrom z (index.map fun l => (l.map fun j => num j * (den j)⁻¹).prod)).zip
        (partialProductsFrom z (index.map fun l => (l.map fun j => num j * (den j)⁻¹).prod))),
      t = 0 := by
  induction index generalizing z with
  | nil => simp [partialProductsFrom]
  | cons l index ih =>
    have hprod : (l.map den).prod ≠ 0 := by
      apply List.prod_ne_zero
      intro h
      obtain ⟨j, hj, hzero⟩ := List.mem_map.mp h
      exact hden l (List.mem_cons_self ..) j hj hzero
    have hquot : (l.map fun j => num j * (den j)⁻¹).prod * (l.map den).prod = (l.map num).prod := by
      rw [← List.prod_map_mul]
      congr 1
      apply List.map_congr_left
      intro j hj
      exact inv_mul_cancel_right₀ (hden l (List.mem_cons_self ..) j hj) _
    intro t ht
    simp only [List.map_cons, partialProductsFrom, List.zip_cons_cons, List.zipWith_cons_cons] at ht
    rcases List.mem_cons.mp ht with rfl | ht
    · rw [mul_assoc, hquot, sub_self]
    · exact ih (fun l' hl' => hden l' (List.mem_cons_of_mem _ hl')) _ t ht

/-- The rows of one challenge, with `Z` in the last column. -/
lemma partialProductsAndZs_rows {numProds : ℕ} (Q : ℕ → List F)
    (hQ : ∀ i, (Q i).length = numProds + 1) (s n : ℕ) :
    partialProductsAndZs numProds (runningProd (fun i => (Q i).prod) s)
        ((List.range' s n).map Q) =
      some ((List.range' s n).map fun i =>
        (partialProductsFrom (runningProd (fun i => (Q i).prod) i) (Q i)).set numProds
          (runningProd (fun i => (Q i).prod) i)) := by
  induction n generalizing s with
  | zero => rfl
  | succ n ih =>
    have hne : (Q s).isEmpty = false := by
      cases hs : Q s with
      | nil =>
        have := hQ s
        simp [hs] at this
      | cons => rfl
    have hlast := partialProductsFrom_last (runningProd (fun i => (Q i).prod) s) (Q s) (hQ s)
    rw [← runningProd_succ fun i => (Q i).prod] at hlast
    simp [List.range'_succ, partialProductsAndZs, partialProductsAndZGx, hne, hlast, ih]

end Chunks

/-! ### The columns of the prover -/

section Columns

variable {F : Type} [Field F] {c : CommonCircuitData} {p : PermutationInputs F}
  {cols : PermutationColumns F}

/-- The quotients of row `i`, chunk by chunk. -/
def rowQuotients (c : CommonCircuitData) (p : PermutationInputs F) (cols : PermutationColumns F)
    (k i : ℕ) : List F :=
  (chunks c.quotientDegreeFactor (List.range c.numRoutedWires)).map fun l =>
    (l.map (cols.quotient p k i)).prod

/-- `Z` in row `i`. -/
def zAt (c : CommonCircuitData) (p : PermutationInputs F) (cols : PermutationColumns F) (k i : ℕ) :
    F :=
  runningProd (fun i => (rowQuotients c p cols k i).prod) i

/-- The partial products of row `i`, of which the last is `Z` in the next row. -/
def rowProducts (c : CommonCircuitData) (p : PermutationInputs F) (cols : PermutationColumns F)
    (k i : ℕ) : List F :=
  partialProductsFrom (zAt c p cols k i) (rowQuotients c p cols k i)

/-- The entry of column `j` in row `i`. -/
def columnEntry (c : CommonCircuitData) (p : PermutationInputs F) (cols : PermutationColumns F)
    (k j i : ℕ) : F :=
  if j = c.numPartialProducts then zAt c p cols k i else (rowProducts c p cols k i).getD j 0

lemma length_rowQuotients (k i : ℕ) :
    (rowQuotients c p cols k i).length = c.numPartialProducts + 1 := by
  have hpos : 0 < (c.numRoutedWires + c.quotientDegreeFactor - 1) / c.quotientDegreeFactor := by
    have hrouted := c.four_le_routed
    exact Nat.div_pos (by omega) c.quotientDegreeFactor_pos
  rw [rowQuotients, List.length_map, length_chunks, List.length_range,
    CommonCircuitData.numPartialProducts, Nat.sub_add_cancel hpos]

/-- The last partial product of a row is `Z` in the next one. -/
lemma rowProducts_last (k i : ℕ) :
    (rowProducts c p cols k i)[c.numPartialProducts]? = some (zAt c p cols k (i + 1)) := by
  rw [rowProducts, partialProductsFrom_last _ _ (length_rowQuotients k i), zAt, zAt, runningProd_succ]

variable [DecidableEq F]

lemma rowQuotientChunkProducts_eq_rowQuotients {k i : ℕ}
    (hden : ∀ j < c.numRoutedWires, cols.wire i j + p.betas k * cols.sigma i j + p.gammas k ≠ 0) :
    rowQuotientChunkProducts p cols c.numRoutedWires c.quotientDegreeFactor k i =
      some (rowQuotients c p cols k i) := by
  have hinv : (0 : F) ∉ (List.range c.numRoutedWires).map fun j =>
      cols.wire i j + p.betas k * cols.sigma i j + p.gammas k := by
    simp only [List.mem_map, List.mem_range, not_exists, not_and]
    exact hden
  have hzip : List.zipWith (· * ·) ((List.range c.numRoutedWires).map fun j =>
        cols.wire i j + p.betas k * (p.kIs j * p.subgroup i) + p.gammas k)
      (((List.range c.numRoutedWires).map fun j =>
        cols.wire i j + p.betas k * cols.sigma i j + p.gammas k).map (·⁻¹)) =
      (List.range c.numRoutedWires).map (cols.quotient p k i) := by
    rw [List.map_map, List.zipWith_map, List.zipWith_self]
    rfl
  have hne : ((List.range c.numRoutedWires).map (cols.quotient p k i)).isEmpty = false := by
    have hrouted := c.four_le_routed
    rw [List.isEmpty_eq_false_iff, ne_eq, List.map_eq_nil_iff, List.range_eq_nil]
    omega
  simp only [rowQuotientChunkProducts, batchMultiplicativeInverse, if_neg hinv,
    Option.bind_eq_bind, Option.bind_some]
  rw [hzip, quotientChunkProducts, hne, if_neg (by decide), chunks_map, List.map_map]
  rfl

lemma wiresPermutationPartialProductsAndZs_eq_columnEntry {k : ℕ}
    (hden : ∀ i < 2 ^ c.degreeBits, ∀ j < c.numRoutedWires,
      cols.wire i j + p.betas k * cols.sigma i j + p.gammas k ≠ 0) :
    wiresPermutationPartialProductsAndZs c p cols k =
      some ((List.range (c.numPartialProducts + 1)).map fun j =>
        (List.range (2 ^ c.degreeBits)).map (columnEntry c p cols k j)) := by
  have hrows := Fold.mapM_eq_some_map (l := List.range (2 ^ c.degreeBits)) (fun i hi =>
    rowQuotientChunkProducts_eq_rowQuotients (k := k) (hden i (List.mem_range.mp hi)))
  have hloop := partialProductsAndZs_rows (rowQuotients c p cols k) (length_rowQuotients k) 0
    (2 ^ c.degreeBits)
  rw [runningProd_zero, ← List.range_eq_range'] at hloop
  have hentries : ∀ i, (rowProducts c p cols k i).set c.numPartialProducts (zAt c p cols k i) =
      (List.range (c.numPartialProducts + 1)).map fun j => columnEntry c p cols k j i := by
    intro i
    have hlen : (rowProducts c p cols k i).length = c.numPartialProducts + 1 := by
      rw [rowProducts, length_partialProductsFrom, length_rowQuotients]
    apply List.ext_getElem
    · simp [hlen]
    · intro j h1 h2
      rw [List.length_set] at h1
      simp only [List.getElem_set, List.getElem_map, List.getElem_range, columnEntry,
        eq_comm (a := c.numPartialProducts), List.getD_eq_getElem?_getD,
        List.getElem?_eq_getElem h1, Option.getD_some]
  simp only [wiresPermutationPartialProductsAndZs, hrows, Option.bind_eq_bind, Option.bind_some,
    hloop]
  rw [← transpose_map_range (fun j i => columnEntry c p cols k j i) (Nat.two_pow_pos _)]
  simp only [← hentries]
  rfl

/-- The entry of column `j` in row `i` of a list of columns. -/
def entryAt (zs : List (List F)) (j i : ℕ) : F := (zs.getD j []).getD i 0

omit [DecidableEq F] in
lemma entryAt_map_append (f : ℕ → List F) (bs : List (List F)) {n k : ℕ} (hk : k < n)
    (i : ℕ) : entryAt ((List.range n).map f ++ bs) k i = (f k).getD i 0 := by
  rw [entryAt, List.getD_append _ _ _ _ (by simpa using hk)]
  simp [hk]

omit [DecidableEq F] in
/-- The entry of a column behind others, which come in groups. -/
lemma entryAt_append_flatMap (as : List (List F)) (col : ℕ → ℕ → List F) {n m k j : ℕ}
    (hk : k < n) (hj : j < m) (i : ℕ) :
    entryAt (as ++ (List.range n).flatMap fun k => (List.range m).map (col k))
      (as.length + (k * m + j)) i = (col k j).getD i 0 := by
  have hindex : k * m + j < n * m := by
    calc k * m + j < (k + 1) * m := by
          rw [Nat.succ_mul]
          omega
      _ ≤ n * m := Nat.mul_le_mul_right _ hk
  rw [WirePartition.flatMap_range_map, entryAt, List.getD_append_right _ _ _ _ (by simp),
    Nat.add_sub_cancel_left]
  simp only [List.getD_eq_getElem?_getD, List.getElem?_map, List.getElem?_range hindex,
    Option.map_some, Option.getD_some, mul_add_div_of_lt hj, Nat.mul_add_mod_of_lt hj]

/-- The columns of all challenges: all `Z` first, then the partial products. -/
lemma exists_zsPartialProducts
    (hden : cols.DenominatorsNeZero p (2 ^ c.degreeBits) c.numRoutedWires c.numChallenges) :
    ∃ zs, zsPartialProducts c p cols = some zs ∧
      ∀ k < c.numChallenges, ∀ i < 2 ^ c.degreeBits,
        entryAt zs k i = zAt c p cols k i ∧
          ∀ j < c.numPartialProducts,
            entryAt zs (c.numChallenges + (k * c.numPartialProducts + j)) i =
              (rowProducts c p cols k i).getD j 0 := by
  set col := fun k j => (List.range (2 ^ c.degreeBits)).map (columnEntry c p cols k j) with hcol
  have hall := Fold.mapM_eq_some_map (l := List.range c.numChallenges) (fun k hk =>
    wiresPermutationPartialProductsAndZs_eq_columnEntry (hden k (List.mem_range.mp hk)))
  have hzs : (List.range c.numChallenges).mapM
      (List.getLast? ∘ fun k => (List.range (c.numPartialProducts + 1)).map (col k)) =
        some ((List.range c.numChallenges).map fun k => col k c.numPartialProducts) := by
    apply Fold.mapM_eq_some_map
    intro k _
    simp [List.range_succ]
  have hentry : ∀ k j, ∀ i < 2 ^ c.degreeBits, (col k j).getD i 0 = columnEntry c p cols k j i := by
    intro k j i hi
    simp [hcol, hi]
  refine ⟨(List.range c.numChallenges).map (fun k => col k c.numPartialProducts) ++
    ((List.range c.numChallenges).flatMap fun k =>
      (List.range c.numPartialProducts).map (col k)), ?_, ?_⟩
  · rw [zsPartialProducts, hall, Option.bind_eq_bind, Option.bind_some, List.mapM_map, hzs,
      Option.bind_eq_bind, Option.bind_some, List.map_map]
    simp [List.range_succ, Function.comp_def, List.flatMap, hcol]
  · intro k hk i hi
    constructor
    · rw [entryAt_map_append _ _ hk, hentry _ _ _ hi, columnEntry, if_pos rfl]
    · intro j hj
      have hget := entryAt_append_flatMap
        ((List.range c.numChallenges).map fun k => col k c.numPartialProducts) col hk hj i
      rw [List.length_map, List.length_range] at hget
      rw [hget, hentry _ _ _ hi, columnEntry, if_neg hj.ne]

end Columns

/-! ### The checks of the prover's columns -/

section Checks

variable {c : CommonCircuitData} {p : PermutationInputs GoldilocksField}
  {cols : PermutationColumns GoldilocksField} {zs : List (List GoldilocksField)} {k : ℕ}

lemma map_range_rowProducts (k i : ℕ) :
    (List.range c.numPartialProducts).map (fun j => (rowProducts c p cols k i).getD j 0) ++
      [zAt c p cols k (i + 1)] = rowProducts c p cols k i := by
  have hlen : (rowProducts c p cols k i).length = c.numPartialProducts + 1 := by
    rw [rowProducts, length_partialProductsFrom, length_rowQuotients]
  have hlast : (rowProducts c p cols k i)[c.numPartialProducts]? = _ := rowProducts_last k i
  apply List.ext_getElem?
  intro j
  rcases lt_trichotomy j c.numPartialProducts with hj | rfl | hj
  · rw [List.getElem?_append_left (by simpa using hj)]
    simp [hj, hlen, Nat.lt_succ_of_lt hj]
  · rw [hlast, List.getElem?_append_right (by simp)]
    simp
  · rw [List.getElem?_eq_none (by simpa using hj), List.getElem?_eq_none (by omega)]

/-- The checks of one row, for columns that hold the prover's values there. -/
lemma partialProductChecks_eq_zero {i : ℕ}
    (hden : ∀ j < c.numRoutedWires, cols.wire i j + p.betas k * cols.sigma i j + p.gammas k ≠ 0)
    {vars : VanishingVars GoldilocksField} (hwires : vars.localWires = cols.wire i)
    (hsigmas : vars.sSigmas = cols.sigma i) (hz : vars.localZs k = zAt c p cols k i)
    (hnext : vars.nextZs k = zAt c p cols k (i + 1))
    (hpp : ∀ j < c.numPartialProducts, vars.partialProducts (k * c.numPartialProducts + j) =
      (rowProducts c p cols k i).getD j 0) :
    ∃ terms, c.partialProductChecks ⟨p.kIs, p.betas, p.gammas, p.gammas⟩ vars (p.subgroup i) k =
      some terms ∧ ∀ t ∈ terms, t = 0 := by
  have hpartials : (List.range c.numPartialProducts).map
      (fun j => vars.partialProducts (k * c.numPartialProducts + j)) ++ [vars.nextZs k] =
        rowProducts c p cols k i := by
    rw [hnext, ← map_range_rowProducts]
    congr 1
    exact List.map_congr_left fun j hj => hpp j (List.mem_range.mp hj)
  have hlen : (rowProducts c p cols k i).length = c.numPartialProducts + 1 := by
    rw [rowProducts, length_partialProductsFrom, length_rowQuotients]
  have hnum : (chunks c.quotientDegreeFactor (List.range c.numRoutedWires)).length =
      c.numPartialProducts + 1 := by
    have hquot : (rowQuotients c p cols k i).length = c.numPartialProducts + 1 :=
      length_rowQuotients k i
    rwa [rowQuotients, List.length_map] at hquot
  simp only [CommonCircuitData.partialProductChecks, checkPartialProducts, hpartials, chunks_map,
    List.length_map, hnum, List.length_cons, hlen, Nat.add_sub_cancel, hwires, hsigmas, hz,
    List.tail_cons, and_self, ↓reduceIte]
  refine ⟨_, rfl, ?_⟩
  refine checks_eq_zero
    (fun j => cols.wire i j + p.betas k * (p.kIs j * p.subgroup i) + p.gammas k)
    (fun j => cols.wire i j + p.betas k * cols.sigma i j + p.gammas k) _ ?_ _
  intro l hl j hj
  apply hden
  have hmem := List.mem_flatten.mpr ⟨l, hl, hj⟩
  rw [flatten_chunks c.quotientDegreeFactor_pos] at hmem
  exact List.mem_range.mp hmem

/-- `Z` after the last row. -/
lemma zAt_last
    (hden : ∀ i < 2 ^ c.degreeBits, ∀ j < c.numRoutedWires,
      cols.wire i j + p.betas k * cols.sigma i j + p.gammas k ≠ 0)
    (hprod : ∏ i ∈ Finset.range (2 ^ c.degreeBits), rowNumerator c p cols k i =
      ∏ i ∈ Finset.range (2 ^ c.degreeBits), rowDenominator c p cols k i) :
    zAt c p cols k (2 ^ c.degreeBits) = 1 := by
  have hrow : ∀ i, (rowQuotients c p cols k i).prod =
      rowNumerator c p cols k i * (rowDenominator c p cols k i)⁻¹ := by
    intro i
    have hflat : (rowQuotients c p cols k i).prod =
        ∏ j ∈ Finset.range c.numRoutedWires, cols.quotient p k i j := by
      have hmap : rowQuotients c p cols k i =
          ((chunks c.quotientDegreeFactor (List.range c.numRoutedWires)).map
            (List.map (cols.quotient p k i))).map List.prod := (List.map_map ..).symm
      rw [hmap, ← List.prod_flatten, ← List.map_flatten, flatten_chunks c.quotientDegreeFactor_pos]
      rfl
    rw [hflat, rowNumerator, rowDenominator, ← Finset.prod_inv_distrib, ← Finset.prod_mul_distrib]
    rfl
  have hall : zAt c p cols k (2 ^ c.degreeBits) =
      ∏ i ∈ Finset.range (2 ^ c.degreeBits), (rowQuotients c p cols k i).prod := rfl
  have hne : ∏ i ∈ Finset.range (2 ^ c.degreeBits), rowDenominator c p cols k i ≠ 0 := by
    refine Finset.prod_ne_zero_iff.mpr fun i hi => Finset.prod_ne_zero_iff.mpr fun j hj => ?_
    exact hden i (Finset.mem_range.mp hi) j (Finset.mem_range.mp hj)
  rw [hall, Finset.prod_congr rfl fun i _ => hrow i, Finset.prod_mul_distrib,
    Finset.prod_inv_distrib, hprod, mul_inv_cancel₀ hne]

end Checks

/-! ### Generated witnesses -/

/-- The witness is generated over the forest of the builder. -/
structure PermutationPreprocessing.Feeds (pre : PermutationPreprocessing) (b : RoutedCircuit)
    (a : BuildArgs) : Prop where
  representativeMap_eq : a.representativeMap = pre.forest.parents
  numWires_eq : a.numWires = b.numWires
  degree_eq : a.degree = b.degree

namespace PermutationPreprocessing

variable {b : RoutedCircuit} {pre : PermutationPreprocessing} {next : Wire → Wire}
  {c : CommonCircuitData}

lemma Spec.parents_eq (h : pre.Spec b next) :
    ∃ rep, b.Classified rep ∧ pre.forest.parents = (List.range b.numTargets).map rep := by
  obtain ⟨rep, hclass, hforest⟩ := b.forest_spec
  refine ⟨rep, hclass, ?_⟩
  rw [h.forest_eq, Option.some.injEq] at hforest
  rw [hforest]

/-- Connected wires have one representative, and with it one value. -/
lemma Feeds.fullWitness_eq {a : BuildArgs} (ha : pre.Feeds b a) (hpre : pre.Spec b next)
    (values : ℕ → Option GoldilocksField) {u v : Wire} (hu : u ∈ b.routedWires)
    (hv : v ∈ b.routedWires) (huv : b.Connected u.target v.target) :
    HostState.fullWitness a values u.row u.column =
      HostState.fullWitness a values v.row v.column := by
  obtain ⟨rep, hclass, hparents⟩ := hpre.parents_eq
  have ht := RoutedCircuit.hasTarget_of_mem_routedWires hu
  have ht' := RoutedCircuit.hasTarget_of_mem_routedWires hv
  have hrep : ∀ w : Wire, b.HasTarget w.target → a.rep w.target = rep (b.index w.target) := by
    intro w hw
    have hindex : w.target.index a.numWires a.degree = b.index w.target := by
      rw [ha.numWires_eq, ha.degree_eq]
      rfl
    rw [BuildArgs.rep, hindex, ha.representativeMap_eq, hparents]
    simp [hw.index_lt]
  have hvalue : rep (b.index u.target) = rep (b.index v.target) :=
    (hclass.classifies _ _).mpr ((RoutedCircuit.eqvGen_nodePairs_iff ht ht').mpr huv)
  change (values (a.rep u.target)).getD 0 = (values (a.rep v.target)).getD 0
  rw [hrep u ht, hrep v ht', hvalue]

/-- A witness can be generated over the forest. -/
lemma Spec.exists_feeds (h : pre.Spec b next) : ∃ a, pre.Feeds b a := by
  obtain ⟨rep, hclass, hparents⟩ := h.parents_eq
  have hlen : pre.forest.parents.length = b.numTargets := by
    rw [hparents, List.length_map, List.length_range]
  refine ⟨⟨[], [], pre.forest.parents, b.numWires, b.degree, ?_, ?_, by simp, by simp, by simp⟩,
    rfl, rfl, rfl⟩
  · rw [hlen, Nat.mul_comm]
    exact Nat.le_add_right _ _
  · intro r hr
    rw [hparents] at hr
    obtain ⟨i, hi, rfl⟩ := List.mem_map.mp hr
    rw [hlen]
    exact hclass.lt i (List.mem_range.mp hi)

/-- When the wires respect the copy constraints the products of all rows agree. -/
lemma Spec.prod_rows (h : pre.Spec b next) (hc : b.Builds c) {wire : ℕ → ℕ → GoldilocksField}
    (hwire : ∀ u ∈ b.routedWires, ∀ v ∈ b.routedWires, b.Connected u.target v.target →
      wire u.row u.column = wire v.row v.column)
    (ch : ℕ → GoldilocksField × GoldilocksField) (k : ℕ) :
    ∏ i ∈ Finset.range (2 ^ c.degreeBits), rowNumerator c (pre.inputs ch) (pre.columns wire) k i =
      ∏ i ∈ Finset.range (2 ^ c.degreeBits),
        rowDenominator c (pre.inputs ch) (pre.columns wire) k i := by
  obtain ⟨σ, hσ⟩ := h.follows.exists_perm
  rw [Spec.prod_rowNumerator hc, h.prod_rowDenominator hc hσ, GrandProduct.prodAt_comp]
  intro x
  have hx := RoutedCircuit.wireAt_mem x
  have hmem := h.follows.mem _ hx
  have hconn := (h.follows.orbit _ hx _ hmem).mp ⟨1, rfl⟩
  rw [← hσ] at hconn hmem
  exact (hwire _ hx _ hmem hconn).symm

end PermutationPreprocessing

/-- The prover turns every witness of the generators into columns `Z` and partial products that pass
all checks of the permutation argument, unless it divides by zero. -/
theorem RoutedCircuit.permutationHolds_zsPartialProducts {b : RoutedCircuit} {order : IntoValues}
    {pre : PermutationPreprocessing} (hpre : b.preprocess order = some pre) {c : CommonCircuitData}
    (hc : b.Builds c) {a : BuildArgs} (ha : pre.Feeds b a) (values : ℕ → Option GoldilocksField)
    (ch : ℕ → GoldilocksField × GoldilocksField)
    (hden : (pre.columns (HostState.fullWitness a values)).DenominatorsNeZero (pre.inputs ch)
      (2 ^ c.degreeBits) c.numRoutedWires c.numChallenges) :
    ∃ zs, zsPartialProducts c (pre.inputs ch) (pre.columns (HostState.fullWitness a values)) =
        some zs ∧
      ∀ k < c.numChallenges, c.PermutationHolds (pre.inputs ch)
        (pre.columns (HostState.fullWitness a values)) (entryAt zs) k := by
  obtain ⟨next, hspec⟩ := b.preprocess_spec hpre
  obtain ⟨zs, hzs, hentry⟩ := exists_zsPartialProducts hden
  refine ⟨zs, hzs, fun k hk => ⟨(hentry k hk 0 (Nat.two_pow_pos _)).1, fun i hi => ?_⟩⟩
  have hprod := hspec.prod_rows hc
    (fun u hu v hv huv => ha.fullWitness_eq hspec values hu hv huv) ch k
  apply partialProductChecks_eq_zero (hden k hk i hi) rfl rfl (hentry k hk i hi).1
  · -- the row after the last one is the first, where `Z` is one
    change entryAt zs k ((i + 1) % 2 ^ c.degreeBits) = _
    rcases Nat.lt_or_ge (i + 1) (2 ^ c.degreeBits) with hlt | hge
    · rw [Nat.mod_eq_of_lt hlt]
      exact (hentry k hk _ hlt).1
    · have hlast : i + 1 = 2 ^ c.degreeBits := by omega
      rw [hlast, Nat.mod_self, zAt_last (hden k hk) hprod]
      exact (hentry k hk 0 (Nat.two_pow_pos _)).1
  · exact (hentry k hk i hi).2

/-- The zero witness under the challenges zero and one. -/
theorem permutationHolds_zsPartialProducts_sampleBuilder :
    ∃ pre a, sampleBuilder.preprocess insertionOrder = some pre ∧ pre.Feeds sampleBuilder a ∧
      ∃ zs, zsPartialProducts standardRecursion (pre.inputs fun _ => (0, 1))
          (pre.columns (HostState.fullWitness a fun _ => none)) = some zs ∧
        ∀ k < 2, standardRecursion.PermutationHolds (pre.inputs fun _ => (0, 1))
          (pre.columns (HostState.fullWitness a fun _ => none)) (entryAt zs) k := by
  obtain ⟨pre, hpre⟩ := exists_preprocess_sampleBuilder
  obtain ⟨next, hspec⟩ := sampleBuilder.preprocess_spec hpre
  obtain ⟨a, ha⟩ := hspec.exists_feeds
  refine ⟨pre, a, hpre, ha, RoutedCircuit.permutationHolds_zsPartialProducts hpre
    sampleBuilder_builds ha (fun _ => none) (fun _ => (0, 1)) ?_⟩
  intro k _ i _ j _
  have hone : (0 : GoldilocksField) + 0 * (pre.columns (HostState.fullWitness a fun _ => none)).sigma
      i j + 1 ≠ 0 := by
    rw [zero_mul, zero_add, zero_add]
    exact one_ne_zero
  exact hone

end MegaZK
