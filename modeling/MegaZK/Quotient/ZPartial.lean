import MegaZK.Query.Basic
import MegaZK.Quotient.Vanishing

/-! # The permutation kernel

`z_partial_partial` adds the terms of `Z` and the partial products to the gate terms that were
accumulated for a coset, and divides by the vanishing polynomial. It reads columns of `ldes_ptr`
for the whole coset LDE, and columns of `polys_ptr` that were transformed to the coset in place;
their offsets are computed in 32 bits. -/

namespace MegaZK

open Scatter

variable {F : Type} [Field F]

/-! ### The kernel -/

/-- `TILE_Q`. -/
def tileQ : ℕ := 16

/-- `N_CLGS`. -/
def nClgs : ℕ := 2

/-- The buffers that the kernel reads. -/
structure ZPartialBuffers (F : Type) where
  points : ℕ → F
  zHCoset : ℕ → F
  kIs : ℕ → F
  alphas : ℕ → F
  ldes : ℕ → F
  polys : ℕ → F
  betas : ℕ → F
  gammas : ℕ → F

/-- The numbers that the kernel is launched with. -/
structure ZPartialArgs where
  degreeBits : ℕ
  part : ℕ
  numWires : ℕ
  numWiresLdes : ℕ
  numConstSigmas : ℕ
  numConstSigmasLdes : ℕ
  numChallenges : ℕ
  numRoutedWires : ℕ
  numPartialProducts : ℕ
  numPartialProductsLdes : ℕ

/-- An `unsigned` shifted by fewer than 32 bits. -/
def shl32 (x bits : ℕ) : ℕ := u32 (x <<< bits)

namespace ZPartialArgs

variable (a : ZPartialArgs) (b : ZPartialBuffers F)

/-- `rate_bits` and `rate` are constants. -/
def rateBits : ℕ := 3

def rate : ℕ := 8

def nrows : ℕ := 2 ^ a.degreeBits

def ldeDegreeBits : ℕ := a.degreeBits + rateBits

def rowStep : ℕ := a.nrows / tileQ

/-- `index_lde`. -/
def indexLde (index : ℕ) : ℕ := index + reverseBits a.part rateBits <<< a.degreeBits

/-- `next_lde_started`. -/
def nextLdeStarted (index : ℕ) : ℕ :=
  reverseBits ((reverseBits index a.degreeBits + 1) % a.nrows) a.degreeBits

/-- `load_from_either`, from the columns that start at `ldeStart` and `start`. -/
def loadColumn (ldeStart start numLdes index : ℕ) : F :=
  if index < numLdes then b.ldes (ldeStart + shl32 index a.ldeDegreeBits)
  else b.polys (start + shl32 index a.degreeBits)

/-- A column of the constants and sigmas at `index`. -/
def const (index column : ℕ) : F :=
  a.loadColumn b (a.indexLde index) index a.numConstSigmasLdes column

/-- A column of the wires. -/
def wire (index column : ℕ) : F :=
  a.loadColumn b (a.indexLde index + shl32 a.numConstSigmasLdes a.ldeDegreeBits)
    (index + shl32 a.numConstSigmas a.degreeBits) a.numWiresLdes column

/-- A column of the `Z`s and partial products. -/
def zpp (index column : ℕ) : F :=
  a.loadColumn b
    (a.indexLde index + shl32 (a.numConstSigmasLdes + a.numWiresLdes) a.ldeDegreeBits)
    (index + shl32 (a.numConstSigmas + a.numWires) a.degreeBits) a.numPartialProductsLdes column

/-- `x`. -/
def x (index : ℕ) : F := 7 * b.points (reverseBits index a.degreeBits * rate + a.part)

/-- `l_0_x`. -/
def l0X (index : ℕ) : F := b.zHCoset a.part * ((a.nrows : F) * (a.x b index + -1))⁻¹

/-- `numerator_acc` and `denominator_acc` after the loop over the wires from `i * rate` on. -/
def chunkAccs (index k i : ℕ) : F × F :=
  (List.range rate).foldl
    (fun acc r =>
      let col := i * rate + r
      let wire := a.wire b index col
      let sigma := a.const b index (col + (a.numConstSigmas - a.numRoutedWires))
      (acc.1 * (wire + (b.betas k * (a.x b index * b.kIs col) + b.gammas k)),
        acc.2 * (wire + (b.betas k * sigma + b.gammas k))))
    (1, 1)

/-- The partial product `i` of challenge `k`. -/
def pp (index k i : ℕ) : F := a.zpp b index (a.numChallenges + k * a.numPartialProducts + i)

/-- The terms of the middle chunks from chunk `i` on, and `pp` after them. -/
def middleTerms (index k : ℕ) : ℕ → ℕ → F → List F × F
  | 0, _, ppPrev => ([], ppPrev)
  | n + 1, i, ppPrev =>
    let accs := a.chunkAccs b index k i
    let pp := a.pp b index k i
    let (terms, last) := middleTerms index k n (i + 1) pp
    ((ppPrev * accs.1 - pp * accs.2) :: terms, last)

/-- The pp terms of challenge `k`. -/
def ppTerms (index k : ℕ) : List F :=
  let zX := a.zpp b index k
  let zGx := a.zpp b (a.nextLdeStarted index) k
  let accs := a.chunkAccs b index k 0
  let pp := a.pp b index k 0
  let (terms, last) := a.middleTerms b index k (a.numPartialProducts - 1) 1 pp
  let lastAccs := a.chunkAccs b index k a.numPartialProducts
  (zX * accs.1 - pp * accs.2) :: (terms ++ [last * lastAccs.1 - zGx * lastAccs.2])

/-- All terms at `index`, in the order in which the kernel adds them. -/
def terms (index : ℕ) : List F :=
  (List.range nClgs).map (fun k => a.l0X b index * (a.zpp b index k + -1)) ++
    (List.range nClgs).flatMap (a.ppTerms b index)

/-- What is stored for challenge `k` at `index`, from the gate terms that stood there. -/
def quotientValue (index k : ℕ) (quotientAcc : F) : F :=
  let s := (a.terms b index).foldl (mulPowAdd (b.alphas k)) ⟨0, 1⟩
  (s.acc + quotientAcc * s.alphaPow) * b.zHCoset (rate + a.part)

/-- The indices and challenges of the threads' loops. -/
def stores (numThreads : ℕ) : List (ℕ × ℕ) :=
  ((List.range numThreads).filter (· < a.rowStep) ×ˢ List.range tileQ ×ˢ List.range nClgs).map
    fun (gId, j, k) => (gId + j * a.rowStep, k)

/-- `z_partial_partial`; a shift by 32 bits or more is undefined. -/
def zPartialPartial (numThreads : ℕ) (output : ℕ → F) : Option (ℕ → F) :=
  if 32 ≤ a.ldeDegreeBits then none
  else some (modifyAll (a.stores numThreads) (fun s => s.1 + shl32 s.2 a.ldeDegreeBits)
    (fun s quotientAcc => a.quotientValue b s.1 s.2 quotientAcc) output)

end ZPartialArgs

/-- `evaluate_z`. -/
def PolyLayout.zPartialArgs {c : CommonCircuitData} (layout : PolyLayout c) (part : ℕ) :
    ZPartialArgs where
  degreeBits := c.degreeBits
  part := part
  numWires := c.numWires
  numWiresLdes := layout.numLdes .wires
  numConstSigmas := c.counts.count .constantsSigmas
  numConstSigmasLdes := layout.numLdes .constantsSigmas
  numChallenges := c.numChallenges
  numRoutedWires := c.numRoutedWires
  numPartialProducts := c.numPartialProducts
  numPartialProductsLdes := layout.numLdes .partialProducts

/-- The threads of the launch in `evaluate_z`. -/
def zPartialThreads (c : CommonCircuitData) : ℕ :=
  (2 ^ c.degreeBits * c.maxQuotientDegreeFactor + 128 * tileQ - 1) / (128 * tileQ) * 128

/-! ### The terms of the kernel -/

lemma foldl_mul_mul (l : List ℕ) (f g : ℕ → F) (x y : F) :
    l.foldl (fun acc r => (acc.1 * f r, acc.2 * g r)) (x, y) =
      (x * (l.map f).prod, y * (l.map g).prod) := by
  induction l generalizing x y with
  | nil => simp
  | cons r l ih => rw [List.foldl_cons, ih, List.map_cons, List.map_cons, List.prod_cons,
      List.prod_cons, mul_assoc, mul_assoc]

namespace ZPartialArgs

variable (a : ZPartialArgs) (b : ZPartialBuffers F) (index k : ℕ)

/-- The factor of wire `j` in the numerator. -/
def numerator (j : ℕ) : F :=
  a.wire b index j + b.betas k * (b.kIs j * a.x b index) + b.gammas k

/-- The factor of wire `j` in the denominator. -/
def denominator (j : ℕ) : F :=
  a.wire b index j +
    b.betas k * a.const b index (j + (a.numConstSigmas - a.numRoutedWires)) + b.gammas k

lemma chunkAccs_eq (i : ℕ) :
    a.chunkAccs b index k i =
      (((List.range rate).map fun t => a.numerator b index k (i * rate + t)).prod,
        ((List.range rate).map fun t => a.denominator b index k (i * rate + t)).prod) := by
  have hfold := foldl_mul_mul (List.range rate)
    (fun t => a.numerator b index k (i * rate + t))
    (fun t => a.denominator b index k (i * rate + t)) 1 1
  rw [one_mul, one_mul] at hfold
  rw [← hfold, chunkAccs]
  congr 1
  funext acc r
  simp only [numerator, denominator]
  rw [add_assoc (a.wire b index _), add_assoc (a.wire b index _), mul_comm (a.x b index)]

/-- The middle chunks check that each partial product follows from the one before. -/
lemma middleTerms_eq (n i : ℕ) :
    a.middleTerms b index k n (i + 1) (a.pp b index k i) =
      ((List.range n).map fun t =>
        a.pp b index k (i + t) * (a.chunkAccs b index k (i + t + 1)).1 -
          a.pp b index k (i + t + 1) * (a.chunkAccs b index k (i + t + 1)).2,
        a.pp b index k (i + n)) := by
  induction n generalizing i with
  | zero => rfl
  | succ n ih =>
    rw [middleTerms, ih, List.range_succ_eq_map, List.map_cons, List.map_map]
    have hassoc : ∀ t, i + 1 + t = i + (t + 1) := by
      intro t
      omega
    simp only [hassoc, Function.comp_def, Nat.succ_eq_add_one, Nat.add_zero]

/-- The accumulators of challenge `k`. -/
def acc : ℕ → F :=
  productAcc (a.numPartialProducts + 1) (a.zpp b index k) (a.zpp b (a.nextLdeStarted index) k)
    (a.pp b index k)

/-- One term for each chunk, the first from `Z(x)` and the last to `Z(gx)`. -/
lemma ppTerms_eq (hpos : 0 < a.numPartialProducts) :
    a.ppTerms b index k =
      (List.range (a.numPartialProducts + 1)).map fun i =>
        a.acc b index k i * (a.chunkAccs b index k i).1 -
          a.acc b index k (i + 1) * (a.chunkAccs b index k i).2 := by
  obtain ⟨n, hn⟩ : ∃ n, a.numPartialProducts = n + 1 := ⟨a.numPartialProducts - 1, by omega⟩
  have hacc : ∀ i, i < n + 1 → a.acc b index k (i + 1) = a.pp b index k i := by
    intro i hi
    rw [acc, productAcc, if_pos (by omega)]
  have hlast : a.acc b index k (n + 1 + 1) = a.zpp b (a.nextLdeStarted index) k := by
    rw [acc, productAcc, if_neg (by omega)]
  rw [ppTerms, hn, Nat.add_sub_cancel, middleTerms_eq, List.range_succ_eq_map, List.map_cons,
    List.range_succ, List.map_append, List.map_append, List.map_map, List.map_singleton,
    List.map_singleton]
  simp only [Nat.succ_eq_add_one, hlast, hacc n (by omega), hacc 0 (by omega), Nat.zero_add]
  congr 2
  apply List.map_congr_left
  intro i hi
  have hi := List.mem_range.mp hi
  simp only [Function.comp_apply, Nat.succ_eq_add_one]
  rw [hacc i (by omega), hacc (i + 1) (by omega)]

end ZPartialArgs

end MegaZK
