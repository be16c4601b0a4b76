import MegaZK.Lib.Fold
import MegaZK.PartialProducts.Basic

/-! # Partial products on the host

`wires_permutation_partial_products_and_zs` and the order in which the prover commits to its
columns. A panic is `none`. -/

namespace MegaZK

open Scan

variable {F : Type} [Field F]

/-- `batch_multiplicative_inverse`, which inverts the product of its arguments. -/
def batchMultiplicativeInverse [DecidableEq F] (x : List F) : Option (List F) :=
  if (0 : F) ∈ x then none else some (x.map (·⁻¹))

/-- `slice::chunks`. -/
def chunks {α : Type} (chunkSize : ℕ) (l : List α) : List (List α) :=
  (List.range ((l.length + chunkSize - 1) / chunkSize)).map fun c =>
    (l.drop (c * chunkSize)).take chunkSize

/-- `quotient_chunk_products`. -/
def quotientChunkProducts (quotientValues : List F) (maxDegree : ℕ) : Option (List F) :=
  if quotientValues.isEmpty then none else some ((chunks maxDegree quotientValues).map List.prod)

/-- The loop of `partial_products_and_z_gx`. -/
def partialProductsFrom : F → List F → List F
  | _, [] => []
  | acc, q :: rest => acc * q :: partialProductsFrom (acc * q) rest

/-- `partial_products_and_z_gx`. -/
def partialProductsAndZGx (zX : F) (quotientChunkProducts : List F) : Option (List F) :=
  if quotientChunkProducts.isEmpty then none else some (partialProductsFrom zX quotientChunkProducts)

/-- The loop over the rows: `Z(gx)` is swapped with `Z(x)`. -/
def partialProductsAndZs (numProds : ℕ) : F → List (List F) → Option (List (List F))
  | _, [] => some []
  | zX, row :: rest => do
    let products ← partialProductsAndZGx zX row
    let zGx ← products[numProds]?
    let rows ← partialProductsAndZs numProds zGx rest
    return products.set numProds zX :: rows

/-- `util::transpose`. -/
def transpose {α : Type} (matrix : List (List α)) : Option (List (List α)) := do
  let row ← matrix.head?
  (List.range row.length).mapM fun i => matrix.mapM fun row => row[i]?

/-- The columns of the wires and the sigmas, by row and column. -/
structure PermutationColumns (F : Type) where
  wire : ℕ → ℕ → F
  sigma : ℕ → ℕ → F

/-- The closure of `wires_permutation_partial_products_and_zs` for row `i`. -/
def rowQuotientChunkProducts [DecidableEq F] (p : PermutationInputs F)
    (cols : PermutationColumns F) (numRoutedWires degree k i : ℕ) : Option (List F) := do
  let beta := p.betas k
  let gamma := p.gammas k
  let numerators := (List.range numRoutedWires).map fun j =>
    cols.wire i j + beta * (p.kIs j * p.subgroup i) + gamma
  let denominators := (List.range numRoutedWires).map fun j =>
    cols.wire i j + beta * cols.sigma i j + gamma
  let denominatorInvs ← batchMultiplicativeInverse denominators
  quotientChunkProducts (List.zipWith (· * ·) numerators denominatorInvs) degree

/-- `wires_permutation_partial_products_and_zs` for challenge `k`. -/
def wiresPermutationPartialProductsAndZs [DecidableEq F] (c : CommonCircuitData)
    (p : PermutationInputs F) (cols : PermutationColumns F) (k : ℕ) : Option (List (List F)) := do
  let allQuotientChunkProducts ← (List.range (2 ^ c.degreeBits)).mapM
    (rowQuotientChunkProducts p cols c.numRoutedWires c.quotientDegreeFactor k)
  let rows ← partialProductsAndZs c.numPartialProducts 1 allQuotientChunkProducts
  transpose rows

/-- `all_wires_permutation_partial_products`, with the `Z` columns moved to the front. -/
def zsPartialProducts [DecidableEq F] (c : CommonCircuitData) (p : PermutationInputs F)
    (cols : PermutationColumns F) : Option (List (List F)) := do
  let all ← (List.range c.numChallenges).mapM fun k =>
    wiresPermutationPartialProductsAndZs c p cols k
  let zs ← all.mapM List.getLast?
  return zs ++ (all.map List.dropLast).flatten

/-! ### The columns as running products -/

/-- The factor of wire `j` in row `i` for challenge `k`. -/
def PermutationColumns.quotient (cols : PermutationColumns F) (p : PermutationInputs F)
    (k i j : ℕ) : F :=
  p.quotient k i j (cols.wire i j) (cols.sigma i j)

/-- The products of the chunks of all rows, one row after the other. -/
def PermutationColumns.chunkQuotient (cols : PermutationColumns F) (p : PermutationInputs F)
    (numChunks maxDegree k m : ℕ) : F :=
  runningProd (fun i => cols.quotient p k (m / numChunks) (m % numChunks * maxDegree + i)) maxDegree

/-- The entry of column `j` in row `i`: the last column is `Z`. -/
def zsEntry (numChunks : ℕ) (f : ℕ → F) (j i : ℕ) : F :=
  if j = numChunks - 1 then runningProd f (i * numChunks)
  else runningProd f (i * numChunks + j + 1)

omit [Field F] in
lemma chunks_map_range (f : ℕ → F) {n q : ℕ} (hq : 0 < q) :
    chunks q ((List.range (n * q)).map f) =
      (List.range n).map fun c => (List.range q).map fun t => f (c * q + t) := by
  have hcount : ((List.range (n * q)).map f).length + q - 1 = n * q + (q - 1) := by
    simp only [List.length_map, List.length_range]
    omega
  unfold chunks
  rw [hcount, Nat.mul_comm n q, Nat.mul_add_div hq, Nat.div_eq_of_lt (by omega), Nat.add_zero]
  apply List.map_congr_left
  intro c hc
  have hle : c * q + q ≤ n * q := by
    rw [← Nat.succ_mul]
    exact Nat.mul_le_mul_right q (List.mem_range.mp hc)
  apply List.ext_getElem
  · simp only [List.length_take, List.length_drop, List.length_map, List.length_range]
    rw [Nat.mul_comm q n]
    omega
  · intro i h1 h2
    simp

lemma partialProductsFrom_map_range (g : ℕ → F) (z : F) (n : ℕ) :
    partialProductsFrom z ((List.range n).map g) =
      (List.range n).map fun j => z * runningProd g (j + 1) := by
  induction n generalizing z g with
  | zero => rfl
  | succ n ih =>
    rw [List.range_succ_eq_map, List.map_cons, List.map_map, partialProductsFrom]
    rw [ih, List.map_cons, List.map_map]
    congr 1
    · simp [runningProd_succ]
    · apply List.map_congr_left
      intro j _
      simp only [Function.comp_apply, Nat.succ_eq_add_one]
      rw [runningProd_succ' g, mul_assoc]
      rfl

/-- The loop over the rows, from row `s` on: `z` is the product of all chunks before it. -/
lemma partialProductsAndZs_range' {numChunks : ℕ} (hC : 0 < numChunks) (f : ℕ → F) (s n : ℕ) :
    partialProductsAndZs (numChunks - 1) (runningProd f (s * numChunks))
        ((List.range' s n).map fun i => (List.range numChunks).map fun j => f (i * numChunks + j)) =
      some ((List.range' s n).map fun i =>
        (List.range numChunks).map fun j => zsEntry numChunks f j i) := by
  induction n generalizing s with
  | zero => rfl
  | succ n ih =>
    have hrow : partialProductsAndZGx (runningProd f (s * numChunks))
        ((List.range numChunks).map fun j => f (s * numChunks + j)) =
          some ((List.range numChunks).map fun j => runningProd f (s * numChunks + j + 1)) := by
      rw [partialProductsAndZGx, if_neg (by simp; omega), partialProductsFrom_map_range]
      simp only [Nat.add_assoc, ← runningProd_add]
    have hlast : ((List.range numChunks).map fun j =>
        runningProd f (s * numChunks + j + 1))[numChunks - 1]? =
          some (runningProd f ((s + 1) * numChunks)) := by
      have hidx : s * numChunks + (numChunks - 1) + 1 = (s + 1) * numChunks := by
        rw [Nat.succ_mul]
        omega
      rw [List.getElem?_map, List.getElem?_range (by omega), Option.map_some, hidx]
    simp only [List.range'_succ, List.map_cons, partialProductsAndZs, hrow, Option.bind_eq_bind,
      Option.bind_some, hlast, ih, Option.pure_def]
    congr 2
    apply List.ext_getElem
    · simp
    · intro j h1 h2
      simp only [List.getElem_set, List.getElem_map, List.getElem_range, zsEntry]
      simp only [eq_comm (a := numChunks - 1)]

omit [Field F] in
lemma transpose_map_range (g : ℕ → ℕ → F) {m n : ℕ} (hn : 0 < n) :
    transpose ((List.range n).map fun i => (List.range m).map fun j => g j i) =
      some ((List.range m).map fun j => (List.range n).map fun i => g j i) := by
  obtain ⟨n, rfl⟩ := Nat.exists_eq_succ_of_ne_zero hn.ne'
  have hhead : ((List.range (n + 1)).map fun i => (List.range m).map fun j => g j i).head? =
      some ((List.range m).map fun j => g j 0) := by
    simp [List.range_succ_eq_map]
  rw [transpose, hhead, Option.bind_eq_bind, Option.bind_some, List.length_map, List.length_range]
  apply Fold.mapM_eq_some_map
  intro j hj
  rw [List.mapM_map]
  apply Fold.mapM_eq_some_map
  intro i _
  rw [Function.comp_apply, List.getElem?_map, List.getElem?_range (List.mem_range.mp hj)]
  rfl

/-- All denominators of the first two challenges are non-zero. -/
def PermutationColumns.DenominatorsNeZero (cols : PermutationColumns F) (p : PermutationInputs F)
    (numRows numRoutedWires numChallenges : ℕ) : Prop :=
  ∀ k < numChallenges, ∀ i < numRows, ∀ j < numRoutedWires,
    cols.wire i j + p.betas k * cols.sigma i j + p.gammas k ≠ 0

variable {c : CommonCircuitData} {p : PermutationInputs F} {cols : PermutationColumns F}

/-- One row of `all_quotient_chunk_products`. -/
lemma rowQuotientChunkProducts_eq [DecidableEq F] {numChunks q k i : ℕ} (hq : 0 < q)
    (hC : 0 < numChunks)
    (hden : ∀ j < numChunks * q, cols.wire i j + p.betas k * cols.sigma i j + p.gammas k ≠ 0) :
    rowQuotientChunkProducts p cols (numChunks * q) q k i =
      some ((List.range numChunks).map fun j =>
        cols.chunkQuotient p numChunks q k (i * numChunks + j)) := by
  have hinv : (0 : F) ∉ (List.range (numChunks * q)).map fun j =>
      cols.wire i j + p.betas k * cols.sigma i j + p.gammas k := by
    simp only [List.mem_map, List.mem_range, not_exists, not_and]
    exact hden
  have hzip : List.zipWith (· * ·) ((List.range (numChunks * q)).map fun j =>
        cols.wire i j + p.betas k * (p.kIs j * p.subgroup i) + p.gammas k)
      (((List.range (numChunks * q)).map fun j =>
        cols.wire i j + p.betas k * cols.sigma i j + p.gammas k).map (·⁻¹)) =
      (List.range (numChunks * q)).map fun j => cols.quotient p k i j := by
    rw [List.map_map, List.zipWith_map, List.zipWith_self]
    rfl
  simp only [rowQuotientChunkProducts, batchMultiplicativeInverse, if_neg hinv,
    Option.bind_eq_bind, Option.bind_some]
  rw [hzip, quotientChunkProducts, if_neg, chunks_map_range _ hq, List.map_map]
  · congr 1
    apply List.map_congr_left
    intro j hj
    have hjC : j < numChunks := List.mem_range.mp hj
    have hdiv : (i * numChunks + j) / numChunks = i := by
      rw [Nat.mul_comm, Nat.mul_add_div hC, Nat.div_eq_of_lt hjC, Nat.add_zero]
    have hmod : (i * numChunks + j) % numChunks = j := by
      rw [Nat.mul_comm, Nat.mul_add_mod, Nat.mod_eq_of_lt hjC]
    simp only [PermutationColumns.chunkQuotient, hdiv, hmod]
    rfl
  · simp
    omega

/-- The chunks of a row when the quotient degree factor divides the number of routed wires. -/
def CommonCircuitData.numChunks (c : CommonCircuitData) : ℕ :=
  c.numRoutedWires / c.quotientDegreeFactor

lemma CommonCircuitData.quotientDegreeFactor_pos (c : CommonCircuitData) :
    0 < c.quotientDegreeFactor := by
  obtain ⟨k, hk⟩ := c.quotientDegree_pow
  rw [CommonCircuitData.quotientDegreeFactor, hk]
  positivity

/-- The column of challenge `k` with index `j`: the last one is `Z`. -/
def CommonCircuitData.zsColumn (c : CommonCircuitData) (p : PermutationInputs F)
    (cols : PermutationColumns F) (k j : ℕ) : List F :=
  (List.range (2 ^ c.degreeBits)).map fun i =>
    zsEntry c.numChunks (cols.chunkQuotient p c.numChunks c.quotientDegreeFactor k) j i

section Divides

variable (hdvd : c.quotientDegreeFactor ∣ c.numRoutedWires)

include hdvd

lemma CommonCircuitData.numChunks_mul : c.numChunks * c.quotientDegreeFactor = c.numRoutedWires :=
  Nat.div_mul_cancel hdvd

lemma CommonCircuitData.numChunks_pos : 0 < c.numChunks := by
  have h := c.four_le_routed
  rw [← c.numChunks_mul hdvd] at h
  exact Nat.pos_of_mul_pos_right (by omega : 0 < c.numChunks * c.quotientDegreeFactor)

lemma CommonCircuitData.numPartialProducts_eq : c.numPartialProducts = c.numChunks - 1 := by
  have hq := c.quotientDegreeFactor_pos
  have hceil : c.numRoutedWires + c.quotientDegreeFactor - 1 =
      c.quotientDegreeFactor * c.numChunks + (c.quotientDegreeFactor - 1) := by
    rw [Nat.mul_comm, c.numChunks_mul hdvd]
    omega
  rw [CommonCircuitData.numPartialProducts, hceil, Nat.mul_add_div hq,
    Nat.div_eq_of_lt (by omega), Nat.add_zero]

variable [DecidableEq F]

lemma wiresPermutationPartialProductsAndZs_eq {k : ℕ}
    (hden : ∀ i < 2 ^ c.degreeBits, ∀ j < c.numRoutedWires,
      cols.wire i j + p.betas k * cols.sigma i j + p.gammas k ≠ 0) :
    wiresPermutationPartialProductsAndZs c p cols k =
      some ((List.range c.numChunks).map (c.zsColumn p cols k)) := by
  have hC := c.numChunks_pos hdvd
  have hrows := Fold.mapM_eq_some_map (l := List.range (2 ^ c.degreeBits)) (fun i hi =>
    rowQuotientChunkProducts_eq c.quotientDegreeFactor_pos hC
      (by rw [c.numChunks_mul hdvd]; exact hden i (List.mem_range.mp hi)))
  have hloop := partialProductsAndZs_range' hC
    (cols.chunkQuotient p c.numChunks c.quotientDegreeFactor k) 0 (2 ^ c.degreeBits)
  rw [Nat.zero_mul, runningProd_zero, ← List.range_eq_range'] at hloop
  simp only [c.numChunks_mul hdvd] at hrows
  rw [wiresPermutationPartialProductsAndZs, hrows, Option.bind_eq_bind, Option.bind_some,
    c.numPartialProducts_eq hdvd, hloop, Option.bind_some]
  exact transpose_map_range _ (by positivity)

/-- The columns of the prover: all `Z` columns, then the partial products of each challenge. -/
lemma zsPartialProducts_eq (p : PermutationInputs F) (cols : PermutationColumns F)
    (hden : cols.DenominatorsNeZero p (2 ^ c.degreeBits) c.numRoutedWires c.numChallenges) :
    zsPartialProducts c p cols =
      some ((List.range c.numChallenges).map (fun k => c.zsColumn p cols k (c.numChunks - 1)) ++
        ((List.range c.numChallenges).map fun k =>
          (List.range (c.numChunks - 1)).map (c.zsColumn p cols k)).flatten) := by
  obtain ⟨m, hm⟩ := Nat.exists_eq_succ_of_ne_zero (c.numChunks_pos hdvd).ne'
  have hall := Fold.mapM_eq_some_map (l := List.range c.numChallenges) (fun k hk =>
    wiresPermutationPartialProductsAndZs_eq hdvd (hden k (List.mem_range.mp hk)))
  have hzs : (List.range c.numChallenges).mapM
      (List.getLast? ∘ fun k => (List.range c.numChunks).map (c.zsColumn p cols k)) =
        some ((List.range c.numChallenges).map fun k => c.zsColumn p cols k (c.numChunks - 1)) := by
    apply Fold.mapM_eq_some_map
    intro k _
    simp [hm, List.range_succ]
  rw [zsPartialProducts, hall, Option.bind_eq_bind, Option.bind_some, List.mapM_map, hzs,
    Option.bind_eq_bind, Option.bind_some, List.map_map]
  simp [hm, List.range_succ, Function.comp_def]

end Divides

end MegaZK
