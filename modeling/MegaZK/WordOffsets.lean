import MegaZK.Quotient.ZPartial
import MegaZK.Witgen.Capacity
import MegaZK.Witgen.Validity

/-! # Offsets of 32 bits

The host casts offsets to `u32`, and the kernels shift the numbers of columns in `unsigned`
arithmetic before they add them to a pointer. `build_gpu` bounds none of the factors. Here is when
all of these offsets are the unbounded ones. -/

namespace MegaZK

/-! ### One offset -/

/-- An offset as it is meant, and as it is computed unless a shift is undefined. -/
structure Offset where
  exact : ℕ
  computed : Option ℕ

namespace Offset

/-- A cast to `u32`, or an expression of `unsigned` numbers without shifts. -/
def cast (x : ℕ) : Offset := ⟨x, some (u32 x)⟩

/-- `x << bits`. -/
def shifted (x bits : ℕ) : Offset :=
  ⟨x * 2 ^ bits, if bits < 32 then some (shl32 x bits) else none⟩

/-- `index + (x << bits)`. -/
def plusShifted (index x bits : ℕ) : Offset :=
  ⟨index + x * 2 ^ bits, (shifted x bits).computed.map fun y => u32 (index + y)⟩

/-- The offset is below `2 ^ 32` and computed as it is meant. -/
def Fits (o : Offset) : Prop := o.exact < 2 ^ 32 ∧ o.computed = some o.exact

@[simp] lemma cast_fits {x : ℕ} : (cast x).Fits ↔ x < 2 ^ 32 := by
  constructor
  · exact And.left
  · exact fun h => ⟨h, congrArg some (u32_of_lt h)⟩

lemma shl32_of_lt {x bits : ℕ} (h : x * 2 ^ bits < 2 ^ 32) : shl32 x bits = x * 2 ^ bits := by
  rw [shl32, Nat.shiftLeft_eq, u32_of_lt h]

@[simp] lemma shifted_fits {x bits : ℕ} :
    (shifted x bits).Fits ↔ bits < 32 ∧ x * 2 ^ bits < 2 ^ 32 := by
  constructor
  · rintro ⟨hlt, hcomputed⟩
    refine ⟨?_, hlt⟩
    by_contra hbits
    rw [shifted, if_neg hbits] at hcomputed
    cases hcomputed
  · rintro ⟨hbits, hlt⟩
    refine ⟨hlt, ?_⟩
    rw [shifted, if_pos hbits, shl32_of_lt hlt]

lemma plusShifted_fits {index x bits : ℕ} (hbits : bits < 32)
    (hlt : index + x * 2 ^ bits < 2 ^ 32) : (plusShifted index x bits).Fits := by
  refine ⟨hlt, ?_⟩
  have hx : x * 2 ^ bits < 2 ^ 32 := by omega
  rw [plusShifted, shifted, if_pos hbits, shl32_of_lt hx, Option.map_some, u32_of_lt hlt]

/-- A smaller number of a column, or a shorter shift, gives a smaller offset. -/
lemma shifted_fits_of_le {x y bits bits' : ℕ} (hy : y * 2 ^ bits' < 2 ^ 32) (hbits : bits' < 32)
    (hx : x ≤ y) (hle : bits ≤ bits') : (shifted x bits).Fits := by
  rw [shifted_fits]
  refine ⟨by omega, lt_of_le_of_lt ?_ hy⟩
  exact Nat.mul_le_mul hx (Nat.pow_le_pow_right (by decide) hle)

end Offset

/-! ### The offsets of a circuit -/

/-- What `build_gpu` accepts: a circuit with the columns that the caller keeps resident, and a
witness generation that was scheduled and planned. -/
structure BuiltCircuit extends CommonCircuitData where
  layout : PolyLayout toCommonCircuitData
  args : BuildArgs
  schedule : Schedule
  numWires_eq : args.numWires = numWires
  degree_eq : args.degree = 2 ^ degreeBits
  scheduled : ∃ h mode, WitnessService.schedule h args mode = .ok schedule
  planned : ∃ p, args.plan schedule = .ok p

/-- The kernels of the quotient polynomials. -/
inductive QuotientKernel
  | permutation
  | gate

namespace BuiltCircuit

variable (c : BuiltCircuit)

/-- The wires in the chunks that the permutation kernel multiplies: it takes eight at a time. -/
def chunkedWires : ℕ := ZPartialArgs.rate * (c.numPartialProducts + 1)

/-- The blow-up of a kernel: the permutation kernel has a constant for it. -/
def kernelRateBits : QuotientKernel → ℕ
  | .permutation => ZPartialArgs.rateBits
  | .gate => c.rateBits

/-- The columns of the constants and sigmas that a kernel may load. -/
def LoadsConst (col : ℕ) : QuotientKernel → Prop
  | .permutation => ∃ wire < c.chunkedWires, col = wire + c.numConstants
  | .gate => col < c.numConstants

/-- The wires that a kernel may load. -/
def LoadsWire (col : ℕ) : QuotientKernel → Prop
  | .permutation => col < c.chunkedWires
  | .gate => col < c.numWires

/-- The columns of the `Z`s and partial products that the permutation kernel loads. -/
def LoadsProduct (col : ℕ) : Prop :=
  col < nClgs ∨ ∃ k < nClgs, ∃ i < max c.numPartialProducts 1,
    col = c.numChallenges + k * c.numPartialProducts + i

/-- `load_from_either`. -/
def columnOffset (rateBits numLdes col : ℕ) : Offset :=
  if col < numLdes then .shifted col (c.degreeBits + rateBits) else .shifted col c.degreeBits

/-- The offsets that are computed in 32 bits. -/
inductive ComputedOffset : Offset → Prop
  -- the casts of the commitments and of `zp`, and the columns of the transforms to the cosets
  | fpOffset (seg : PolySegment) : ComputedOffset (.cast (2 ^ c.degreeBits * c.counts.offset seg))
  | degree : ComputedOffset (.cast (2 ^ c.degreeBits))
  | ldeDegree : ComputedOffset (.cast (2 ^ c.degreeBits <<< c.rateBits))
  | quotientDegree : ComputedOffset (.cast (2 ^ c.degreeBits * c.quotientDegreeFactor))
  | zpOffset : ComputedOffset (.cast (c.numConstants * 2 ^ c.degreeBits))
  | ldeColumn (seg : PolySegment) (col : ℕ) (hcol : col < c.layout.numLdes seg) :
      ComputedOffset (.cast (col * 2 ^ c.degreeBits <<< c.rateBits))
  -- the kernels of the quotient polynomials
  | indexLde (kernel : QuotientKernel) (part index : ℕ) (hindex : index < 2 ^ c.degreeBits) :
      ComputedOffset
        (.plusShifted index (reverseBits part (c.kernelRateBits kernel)) c.degreeBits)
  | wiresStart : ComputedOffset (.shifted (c.counts.count .constantsSigmas) c.degreeBits)
  | wiresLdeStart (kernel : QuotientKernel) :
      ComputedOffset (.shifted (c.layout.numLdes .constantsSigmas)
        (c.degreeBits + c.kernelRateBits kernel))
  | const (kernel : QuotientKernel) (col : ℕ) (hcol : c.LoadsConst col kernel) :
      ComputedOffset (c.columnOffset (c.kernelRateBits kernel)
        (c.layout.numLdes .constantsSigmas) col)
  | wire (kernel : QuotientKernel) (col : ℕ) (hcol : c.LoadsWire col kernel) :
      ComputedOffset (c.columnOffset (c.kernelRateBits kernel) (c.layout.numLdes .wires) col)
  | output (kernel : QuotientKernel) (k : ℕ) (hk : k < nClgs) :
      ComputedOffset (.shifted k (c.degreeBits + c.kernelRateBits kernel))
  -- the permutation kernel alone
  | point (part index : ℕ) (hpart : part < 2 ^ c.rateBits) (hindex : index < 2 ^ c.degreeBits) :
      ComputedOffset (.cast (reverseBits index c.degreeBits * ZPartialArgs.rate + part))
  | zppsStart :
      ComputedOffset (.shifted (c.counts.count .constantsSigmas + c.numWires) c.degreeBits)
  | zppsLdeStart :
      ComputedOffset (.shifted (c.layout.numLdes .constantsSigmas + c.layout.numLdes .wires)
        (c.degreeBits + ZPartialArgs.rateBits))
  | ppsStart (k : ℕ) (hk : k < nClgs) :
      ComputedOffset (.shifted (c.numChallenges + k * c.numPartialProducts) c.degreeBits)
  | ppsLdeStart (k : ℕ) (hk : k < nClgs) :
      ComputedOffset (.shifted (c.numChallenges + k * c.numPartialProducts)
        (c.degreeBits + ZPartialArgs.rateBits))
  | zpp (col : ℕ) (hcol : c.LoadsProduct col) :
      ComputedOffset (c.columnOffset ZPartialArgs.rateBits (c.layout.numLdes .partialProducts) col)
  -- the final polynomial
  | reduceStart : ComputedOffset (.shifted (c.counts.offset .partialProducts) c.degreeBits)
  | reduceColumn (p : ℕ) (hp : p < c.counts.numPolys) :
      ComputedOffset (.shifted p c.degreeBits)
  | reduceWord (gId : ℕ) (hgId : gId < (2 ^ c.degreeBits + 31) / 32 * 32) :
      ComputedOffset (.cast (2 * gId + 1))
  -- the slots of the witness, the read map and the parameters
  | start (pre post : List (ℕ × String × List ℕ)) (hpre : c.schedule.batches = pre ++ post)
      (r : PlanState × List KernelBatch) (hr : c.args.planBatches pre = .ok r) (k : Region) :
      ComputedOffset ⟨c.args.regionStart k pre, some (r.1.start k)⟩
  | slot (pre post : List (ℕ × String × List ℕ)) (b : ℕ × String × List ℕ)
      (hpre : c.schedule.batches = pre ++ b :: post) (r : PlanState × List KernelBatch)
      (hr : c.args.planBatches pre = .ok r) (k : Region) (gi : ℕ × ℕ) (hgi : gi ∈ b.2.2.zipIdx)
      (j : ℕ) (hj : j < c.args.items k gi.1) :
      ComputedOffset ⟨c.args.regionStart k pre + (gi.2 + j * b.2.2.length),
        some (u32 (r.1.start k + u32 (gi.2 + j * b.2.2.length)))⟩
  | fullWitness (row col : ℕ) (hrow : row < c.args.degree) (hcol : col < c.args.numWires) :
      ComputedOffset (.cast (col * c.args.degree + row))
  | representative (row col : ℕ) (hrow : row < c.args.degree) (hcol : col < c.args.numWires) :
      ComputedOffset (.cast (row * c.args.numWires + col))

/-- Every offset is computed as it is meant. -/
def OffsetsFit : Prop := ∀ o, c.ComputedOffset o → o.Fits

/-- The sizes below which nothing wraps. -/
structure SizesFit : Prop where
  columns : c.counts.offset .quotients * 2 ^ c.degreeBits < 2 ^ 32
  polys : (c.counts.numPolys - 1) * 2 ^ c.degreeBits < 2 ^ 32
  quotient : 2 ^ c.degreeBits * c.quotientDegreeFactor < 2 ^ 32
  chunks : (c.numConstants + c.chunkedWires - 1) * 2 ^ c.degreeBits < 2 ^ 32
  shifts : ∀ kernel, c.degreeBits + c.kernelRateBits kernel < 32
  resident : ∀ seg, (c.layout.numLdes seg - 1) * 2 ^ (c.degreeBits + c.rateBits) < 2 ^ 32
  residentConstants :
    c.layout.numLdes .constantsSigmas * 2 ^ (c.degreeBits + c.rateBits) < 2 ^ 32
  residentWires : (c.layout.numLdes .constantsSigmas + c.layout.numLdes .wires) *
    2 ^ (c.degreeBits + ZPartialArgs.rateBits) < 2 ^ 32
  products : (c.numChallenges + c.numPartialProducts) *
    2 ^ (c.degreeBits + ZPartialArgs.rateBits) < 2 ^ 32
  residentProducts : (min (c.layout.numLdes .partialProducts)
      (c.numChallenges + c.numPartialProducts + max c.numPartialProducts 1) - 1) *
    2 ^ (c.degreeBits + ZPartialArgs.rateBits) < 2 ^ 32
  regions : ∀ k, c.args.regionStart k c.schedule.batches < 2 ^ 32

/-! ### Exactly when they fit -/

variable {c}

section SizesFit

variable (h : c.SizesFit)

include h

lemma SizesFit.degree_lt (kernel : QuotientKernel) :
    2 ^ (c.degreeBits + c.kernelRateBits kernel) < 2 ^ 32 :=
  Nat.pow_lt_pow_right (by decide) (h.shifts kernel)

/-- Every column of a segment before the quotients starts below `2 ^ 32`. -/
lemma SizesFit.column_lt {x : ℕ} (hx : x ≤ c.counts.offset .quotients) :
    x * 2 ^ c.degreeBits < 2 ^ 32 :=
  lt_of_le_of_lt (Nat.mul_le_mul_right _ hx) h.columns

omit h in
lemma numWires_le : c.numWires ≤ c.counts.offset .quotients := by
  have hoff : c.counts.offset .quotients =
    c.counts.count .constantsSigmas + c.numWires + c.counts.count .partialProducts := rfl
  omega

lemma SizesFit.shifted_column {x : ℕ} (hx : x * 2 ^ c.degreeBits < 2 ^ 32) :
    (Offset.shifted x c.degreeBits).Fits := by
  have hshift := h.shifts .permutation
  exact Offset.shifted_fits.mpr ⟨by omega, hx⟩

/-- A column fits if it does where it is resident and where it is not. -/
lemma SizesFit.columnOffset_fits (kernel : QuotientKernel) {numLdes col : ℕ}
    (hlde : col < numLdes → col * 2 ^ (c.degreeBits + c.kernelRateBits kernel) < 2 ^ 32)
    (hcol : ¬ col < numLdes → col * 2 ^ c.degreeBits < 2 ^ 32) :
    (c.columnOffset (c.kernelRateBits kernel) numLdes col).Fits := by
  rw [columnOffset]
  split_ifs with hres
  · exact Offset.shifted_fits.mpr ⟨h.shifts kernel, hlde hres⟩
  · exact h.shifted_column (hcol hres)

/-- The resident constants and sigmas fit in both kernels. -/
lemma SizesFit.residentConstants_lt (kernel : QuotientKernel) :
    c.layout.numLdes .constantsSigmas * 2 ^ (c.degreeBits + c.kernelRateBits kernel) < 2 ^ 32 := by
  cases kernel with
  | permutation =>
    exact lt_of_le_of_lt (Nat.mul_le_mul_right _ (Nat.le_add_right _ _)) h.residentWires
  | gate => exact h.residentConstants

lemma SizesFit.const_fits (kernel : QuotientKernel) {col : ℕ} (hcol : c.LoadsConst col kernel) :
    (c.columnOffset (c.kernelRateBits kernel) (c.layout.numLdes .constantsSigmas) col).Fits := by
  refine h.columnOffset_fits kernel ?_ ?_
  · intro hres
    exact lt_of_le_of_lt (Nat.mul_le_mul_right _ hres.le) (h.residentConstants_lt kernel)
  · intro _
    cases kernel with
    | permutation =>
      obtain ⟨wire, hwire, rfl⟩ := hcol
      exact lt_of_le_of_lt (Nat.mul_le_mul_right _ (by omega)) h.chunks
    | gate =>
      have hcol : col < c.numConstants := hcol
      refine h.column_lt ?_
      have hoff : c.counts.offset .quotients =
        c.numConstants + c.numRoutedWires + c.counts.count .wires +
          c.counts.count .partialProducts := rfl
      omega

lemma SizesFit.wire_fits (kernel : QuotientKernel) {col : ℕ} (hcol : c.LoadsWire col kernel) :
    (c.columnOffset (c.kernelRateBits kernel) (c.layout.numLdes .wires) col).Fits := by
  refine h.columnOffset_fits kernel ?_ ?_
  · intro hres
    cases kernel with
    | permutation =>
      exact lt_of_le_of_lt (Nat.mul_le_mul_right _ (by omega)) h.residentWires
    | gate => exact lt_of_le_of_lt (Nat.mul_le_mul_right _ (by omega)) (h.resident .wires)
  · intro _
    cases kernel with
    | permutation =>
      have hcol : col < c.chunkedWires := hcol
      exact lt_of_le_of_lt (Nat.mul_le_mul_right _ (by omega)) h.chunks
    | gate =>
      have hcol : col < c.numWires := hcol
      refine h.column_lt ?_
      have hoff : c.counts.offset .quotients =
        c.counts.count .constantsSigmas + c.numWires + c.counts.count .partialProducts := rfl
      omega

/-- The `Z`s and the first partial products of both challenges fit wherever they lie. -/
lemma SizesFit.product_lt {col : ℕ} (hcol : col ≤ c.numChallenges + c.numPartialProducts) :
    col * 2 ^ (c.degreeBits + ZPartialArgs.rateBits) < 2 ^ 32 :=
  lt_of_le_of_lt (Nat.mul_le_mul_right _ hcol) h.products

lemma SizesFit.zpp_fits {col : ℕ} (hcol : c.LoadsProduct col) :
    (c.columnOffset ZPartialArgs.rateBits (c.layout.numLdes .partialProducts) col).Fits := by
  have hone : 2 ^ (c.degreeBits + ZPartialArgs.rateBits) < 2 ^ 32 := h.degree_lt .permutation
  have hpow : 2 ^ (c.degreeBits + ZPartialArgs.rateBits) = 2 ^ c.degreeBits * 8 := pow_add _ _ 3
  obtain hz | ⟨k, hk, i, hi, rfl⟩ := hcol
  · have hle : col * 2 ^ (c.degreeBits + ZPartialArgs.rateBits) < 2 ^ 32 := by
      have hz : col ≤ 1 := Nat.le_of_lt_succ hz
      exact lt_of_le_of_lt (Nat.mul_le_mul_right _ hz) (by rwa [one_mul])
    refine h.columnOffset_fits .permutation (fun _ => hle) fun _ => ?_
    exact lt_of_le_of_lt (Nat.mul_le_mul_left _ (by omega)) hle
  · have hk : k * c.numPartialProducts ≤ c.numPartialProducts := by
      have hk : k ≤ 1 := Nat.le_of_lt_succ hk
      calc k * c.numPartialProducts ≤ 1 * c.numPartialProducts := Nat.mul_le_mul_right _ hk
        _ = c.numPartialProducts := one_mul _
    refine h.columnOffset_fits .permutation ?_ ?_
    · intro hres
      exact lt_of_le_of_lt (Nat.mul_le_mul_right _ (by omega)) h.residentProducts
    · intro _
      have hproducts := h.products
      rw [hpow] at hproducts
      calc (c.numChallenges + k * c.numPartialProducts + i) * 2 ^ c.degreeBits
          ≤ (c.numChallenges + c.numPartialProducts) * 8 * 2 ^ c.degreeBits :=
            Nat.mul_le_mul_right _ (by omega)
        _ = (c.numChallenges + c.numPartialProducts) * (2 ^ c.degreeBits * 8) := by ring
        _ < 2 ^ 32 := hproducts

/-- The starts that the plan computes are the unbounded ones. -/
lemma SizesFit.start_eq {pre post : List (ℕ × String × List ℕ)}
    (hpre : c.schedule.batches = pre ++ post) {r : PlanState × List KernelBatch}
    (hr : c.args.planBatches pre = .ok r) (k : Region) :
    r.1.start k = c.args.regionStart k pre := by
  rw [(c.args.planBatches_spec pre).2 r hr]
  refine u32_of_lt (lt_of_le_of_lt (c.args.regionStart_le k pre post) ?_)
  rw [← hpre]
  exact h.regions k

/-- An item of a generator lies below the end of the region of its batch. -/
lemma SizesFit.item_lt {pre post : List (ℕ × String × List ℕ)} {b : ℕ × String × List ℕ}
    (hpre : c.schedule.batches = pre ++ b :: post) {k : Region} {gi : ℕ × ℕ}
    (hgi : gi ∈ b.2.2.zipIdx) {j : ℕ} (hj : j < c.args.items k gi.1) :
    c.args.regionStart k pre + (gi.2 + j * b.2.2.length) < 2 ^ 32 := by
  obtain ⟨g, i⟩ := gi
  obtain ⟨hi, hg⟩ := List.getElem?_eq_some_iff.mp (List.mk_mem_zipIdx_iff_getElem?.mp hgi)
  have hwidth : c.args.items k g ≤ c.args.width k b.2.2 :=
    c.args.items_le_width (List.mem_of_getElem hg) k
  have hitem : i + j * b.2.2.length < b.2.2.length * c.args.width k b.2.2 := by
    calc i + j * b.2.2.length < (j + 1) * b.2.2.length := by rw [Nat.succ_mul]; omega
      _ ≤ c.args.width k b.2.2 * b.2.2.length := Nat.mul_le_mul_right _ (by dsimp only at hj; omega)
      _ = b.2.2.length * c.args.width k b.2.2 := Nat.mul_comm _ _
  have hend := c.args.regionStart_le k (pre ++ [b]) post
  rw [List.append_assoc, List.singleton_append, ← hpre, BuildArgs.regionStart_concat] at hend
  have hregion := h.regions k
  dsimp only
  omega

/-- Below these sizes no offset wraps. -/
lemma SizesFit.offsetsFit : c.OffsetsFit := by
  have hdegree : 2 ^ c.degreeBits < 2 ^ 32 :=
    lt_of_le_of_lt (Nat.pow_le_pow_right (by decide) (Nat.le_add_right _ _)) (h.degree_lt .gate)
  have hpoint : 2 ^ c.degreeBits * 8 ≤ 2 ^ 31 := by
    have hshift : c.degreeBits + 3 < 32 := h.shifts .permutation
    calc 2 ^ c.degreeBits * 8 = 2 ^ (c.degreeBits + 3) := (pow_add _ _ 3).symm
      _ ≤ 2 ^ 31 := Nat.pow_le_pow_right (by decide) (by omega)
  have hlde : 2 ^ c.degreeBits <<< c.rateBits = 2 ^ (c.degreeBits + c.rateBits) := by
    rw [Nat.shiftLeft_eq, pow_add]
  intro o ho
  cases ho with
  | fpOffset seg =>
    rw [Offset.cast_fits, Nat.mul_comm]
    refine h.column_lt ?_
    cases seg <;> simp only [PolyCounts.offset] <;> omega
  | degree => exact Offset.cast_fits.mpr hdegree
  | ldeDegree =>
    rw [Offset.cast_fits, hlde]
    exact h.degree_lt .gate
  | quotientDegree => exact Offset.cast_fits.mpr h.quotient
  | zpOffset =>
    refine Offset.cast_fits.mpr (h.column_lt ?_)
    simp only [PolyCounts.offset, CommonCircuitData.counts]
    omega
  | ldeColumn seg col hcol =>
    rw [Offset.cast_fits, hlde]
    exact lt_of_le_of_lt (Nat.mul_le_mul_right _ (by omega)) (h.resident seg)
  | indexLde kernel part index hindex =>
    have hshift := h.shifts kernel
    refine Offset.plusShifted_fits (by omega) ?_
    have hrev := reverseBits_lt part (c.kernelRateBits kernel)
    calc index + reverseBits part (c.kernelRateBits kernel) * 2 ^ c.degreeBits
        < (reverseBits part (c.kernelRateBits kernel) + 1) * 2 ^ c.degreeBits := by
          rw [Nat.succ_mul]; omega
      _ ≤ 2 ^ c.kernelRateBits kernel * 2 ^ c.degreeBits := Nat.mul_le_mul_right _ hrev
      _ = 2 ^ (c.degreeBits + c.kernelRateBits kernel) := by rw [← pow_add, Nat.add_comm]
      _ < 2 ^ 32 := h.degree_lt kernel
  | wiresStart =>
    refine h.shifted_column (h.column_lt ?_)
    simp only [PolyCounts.offset, PolyCounts.count]
    omega
  | wiresLdeStart kernel =>
    exact Offset.shifted_fits.mpr ⟨h.shifts kernel, h.residentConstants_lt kernel⟩
  | const kernel col hcol => exact h.const_fits kernel hcol
  | wire kernel col hcol => exact h.wire_fits kernel hcol
  | output kernel k hk =>
    have hk : k ≤ 1 := Nat.le_of_lt_succ hk
    refine Offset.shifted_fits.mpr ⟨h.shifts kernel, ?_⟩
    exact lt_of_le_of_lt (Nat.mul_le_mul_right _ hk) (by rw [one_mul]; exact h.degree_lt kernel)
  | point part index hpart hindex =>
    rw [Offset.cast_fits]
    have hrev := reverseBits_lt index c.degreeBits
    have hpart : part < 2 ^ 31 := by
      have hshift : c.degreeBits + c.rateBits < 32 := h.shifts .gate
      exact lt_of_lt_of_le hpart (Nat.pow_le_pow_right (by decide) (by omega))
    simp only [ZPartialArgs.rate]
    omega
  | zppsStart =>
    refine h.shifted_column (h.column_lt ?_)
    exact Nat.le_add_right _ _
  | zppsLdeStart => exact Offset.shifted_fits.mpr ⟨h.shifts .permutation, h.residentWires⟩
  | ppsStart k hk =>
    have hk : k ≤ 1 := Nat.le_of_lt_succ hk
    have hle := Nat.mul_le_mul_right c.numPartialProducts hk
    refine Offset.shifted_fits_of_le (h.product_lt (Nat.add_le_add_left ?_ _))
      (h.shifts .permutation) le_rfl (Nat.le_add_right _ _)
    rwa [one_mul] at hle
  | ppsLdeStart k hk =>
    have hk : k ≤ 1 := Nat.le_of_lt_succ hk
    have hle := Nat.mul_le_mul_right c.numPartialProducts hk
    rw [one_mul] at hle
    exact Offset.shifted_fits.mpr
      ⟨h.shifts .permutation, h.product_lt (Nat.add_le_add_left hle _)⟩
  | zpp col hcol => exact h.zpp_fits hcol
  | reduceStart =>
    refine h.shifted_column (h.column_lt ?_)
    simp only [PolyCounts.offset]
    omega
  | reduceColumn p hp =>
    refine h.shifted_column (lt_of_le_of_lt (Nat.mul_le_mul_right _ ?_) h.polys)
    omega
  | reduceWord gId hgId =>
    rw [Offset.cast_fits]
    omega
  | start pre post hpre r hr k =>
    refine ⟨lt_of_le_of_lt (c.args.regionStart_le k pre post) ?_, ?_⟩
    · rw [← hpre]
      exact h.regions k
    · rw [h.start_eq hpre hr]
  | slot pre post b hpre r hr k gi hgi j hj =>
    have hlt := h.item_lt hpre hgi hj
    refine ⟨hlt, ?_⟩
    rw [h.start_eq hpre hr, u32_of_lt (x := gi.2 + j * b.2.2.length) (by omega), u32_of_lt hlt]
  | fullWitness row col hrow hcol =>
    rw [c.degree_eq] at hrow ⊢
    rw [c.numWires_eq] at hcol
    rw [Offset.cast_fits]
    calc col * 2 ^ c.degreeBits + row < (col + 1) * 2 ^ c.degreeBits := by
          rw [Nat.succ_mul]; omega
      _ ≤ c.numWires * 2 ^ c.degreeBits := Nat.mul_le_mul_right _ hcol
      _ < 2 ^ 32 := h.column_lt numWires_le
  | representative row col hrow hcol =>
    rw [c.degree_eq] at hrow
    rw [c.numWires_eq] at hcol ⊢
    rw [Offset.cast_fits]
    calc row * c.numWires + col < (row + 1) * c.numWires := by rw [Nat.succ_mul]; omega
      _ ≤ 2 ^ c.degreeBits * c.numWires := Nat.mul_le_mul_right _ hrow
      _ = c.numWires * 2 ^ c.degreeBits := Nat.mul_comm _ _
      _ < 2 ^ 32 := h.column_lt numWires_le

end SizesFit

section OffsetsFit

variable (h : c.OffsetsFit)

include h

lemma OffsetsFit.shifts (kernel : QuotientKernel) : c.degreeBits + c.kernelRateBits kernel < 32 :=
  (Offset.shifted_fits.mp (h _ (.output kernel 0 (by decide)))).1

/-- A column is shifted by the bits of the degree if not by more. -/
lemma OffsetsFit.const_lt {kernel : QuotientKernel} {col : ℕ} (hcol : c.LoadsConst col kernel) :
    col * 2 ^ c.degreeBits < 2 ^ 32 := by
  have hfits := h _ (.const kernel col hcol)
  rw [columnOffset] at hfits
  split_ifs at hfits
  · refine lt_of_le_of_lt ?_ (Offset.shifted_fits.mp hfits).2
    exact Nat.mul_le_mul_left _ (Nat.pow_le_pow_right (by decide) (Nat.le_add_right _ _))
  · exact (Offset.shifted_fits.mp hfits).2

/-- The last resident partial product that is loaded: the first one of the second challenge has
its offset computed in any case. -/
lemma OffsetsFit.residentProducts : (min (c.layout.numLdes .partialProducts)
      (c.numChallenges + c.numPartialProducts + max c.numPartialProducts 1) - 1) *
    2 ^ (c.degreeBits + ZPartialArgs.rateBits) < 2 ^ 32 := by
  have hproducts := (Offset.shifted_fits.mp (h _ (.ppsLdeStart 1 (by decide)))).2
  rw [one_mul] at hproducts
  by_cases hlast : min (c.layout.numLdes .partialProducts)
      (c.numChallenges + c.numPartialProducts + max c.numPartialProducts 1) - 1 ≤
        c.numChallenges + c.numPartialProducts
  · exact lt_of_le_of_lt (Nat.mul_le_mul_right _ hlast) hproducts
  · obtain ⟨i, hi⟩ := Nat.exists_eq_add_of_le (Nat.le_of_not_le hlast)
    have hloads : c.LoadsProduct (min (c.layout.numLdes .partialProducts)
        (c.numChallenges + c.numPartialProducts + max c.numPartialProducts 1) - 1) := by
      refine .inr ⟨1, by decide, i, ?_, ?_⟩ <;> omega
    have hfits := h _ (.zpp _ hloads)
    rw [columnOffset, if_pos (by omega)] at hfits
    exact (Offset.shifted_fits.mp hfits).2

/-- The offsets that are largest give the sizes. -/
lemma OffsetsFit.sizesFit : c.SizesFit where
  columns := by
    have hfits := Offset.cast_fits.mp (h _ (.fpOffset .quotients))
    rwa [Nat.mul_comm] at hfits
  polys := by
    cases hn : c.counts.numPolys with
    | zero => simp
    | succ n => exact (Offset.shifted_fits.mp (h _ (.reduceColumn n (by omega)))).2
  quotient := Offset.cast_fits.mp (h _ .quotientDegree)
  chunks := by
    have hpos : 0 < c.chunkedWires := Nat.mul_pos (by decide) (Nat.succ_pos _)
    have hloads : c.LoadsConst (c.chunkedWires - 1 + c.numConstants) .permutation :=
      ⟨c.chunkedWires - 1, by omega, rfl⟩
    have hlt := h.const_lt hloads
    rwa [Nat.add_comm, ← Nat.add_sub_assoc hpos] at hlt
  shifts := h.shifts
  resident seg := by
    have hshift : 2 ^ c.degreeBits <<< c.rateBits = 2 ^ (c.degreeBits + c.rateBits) := by
      rw [Nat.shiftLeft_eq, pow_add]
    cases hn : c.layout.numLdes seg with
    | zero => simp
    | succ n =>
      have hfits := Offset.cast_fits.mp (h _ (.ldeColumn seg n (by omega)))
      rwa [hshift] at hfits
  residentConstants := (Offset.shifted_fits.mp (h _ (.wiresLdeStart .gate))).2
  residentWires := (Offset.shifted_fits.mp (h _ .zppsLdeStart)).2
  products := by
    have hfits := (Offset.shifted_fits.mp (h _ (.ppsLdeStart 1 (by decide)))).2
    rwa [one_mul] at hfits
  residentProducts := h.residentProducts
  regions k := by
    obtain ⟨r, hr⟩ := (c.args.plan_isOk c.schedule).mp c.planned
    exact (h _ (.start c.schedule.batches [] (by simp) r hr k)).1

end OffsetsFit

/-- All offsets that the host and the kernels compute in 32 bits are the unbounded ones exactly when
the sizes of the circuit and of its plan are below the bounds of their largest members. -/
theorem offsetsFit_iff (c : BuiltCircuit) : c.OffsetsFit ↔ c.SizesFit :=
  ⟨OffsetsFit.sizesFit, SizesFit.offsetsFit⟩

end BuiltCircuit

/-! ### Resident columns of a large circuit -/

/-- A random wire, in a circuit of `2 ^ 22` rows. -/
def largeArgs : BuildArgs where
  inputTargets := []
  generators := [⟨"RandomValueGenerator", [], [.wire 0 0], []⟩]
  representativeMap := List.range (135 * 2 ^ 22)
  numWires := 135
  degree := 2 ^ 22
  wires_le := by rw [List.length_range]
  rep_lt r hr := by rwa [List.length_range, ← List.mem_range]
  inputs_lt := by simp
  watch_lt := by simp
  outputs_lt := by simp [Target.index]

/-- Standard gates on `2 ^ 22` rows. -/
def residentRecursion : CommonCircuitData where
  numWires := 135
  numRoutedWires := 80
  numChallenges := 2
  maxQuotientDegreeFactor := 8
  zeroKnowledge := false
  rateBits := 3
  capHeight := 4
  numQueryRounds := 28
  degreeBits := 22
  reductionArityBits := [4, 4, 4, 4, 4]
  numConstants := 4
  numPublicInputs := 4
  numLookupPolys := 0
  arities_le := by decide
  quotientDegree_pow := standardQuotientDegree
  four_le_routed := standardRoutedWires
  lde_le := by decide

/-- All constants and sigmas and 44 wires stay resident. -/
def residentLayout : PolyLayout residentRecursion where
  numLdes
    | .constantsSigmas => 84
    | .wires => 44
    | .partialProducts => 0
    | .quotients => 0
  numLdes_le seg := by cases seg <;> decide

lemma largeArgs_allReady : largeArgs.AllReady := by
  intro i hi
  obtain rfl : i = 0 := Nat.lt_one_iff.mp hi
  exact .intro 0 (fun _ => 0) (by simp [BuildArgs.watchReps, BuildArgs.generator, largeArgs])
    (by simp [BuildArgs.watchReps, BuildArgs.generator, largeArgs])

/-- Nothing is read, so every plan is filled. -/
lemma largeArgs_planned (s : Schedule) : ∃ p, largeArgs.plan s = .ok p := by
  rw [BuildArgs.plan_isOk, (largeArgs.planBatches_spec s.batches).1]
  intro pre b post _ gi _ k hk j hj
  have hnone : ∀ g,
      (largeArgs.generator g).watchList = [] ∧ (largeArgs.generator g).params = [] := by
    intro g
    cases g with
    | zero => exact ⟨rfl, rfl⟩
    | succ g => exact ⟨rfl, rfl⟩
  cases k with
  | write => exact absurd rfl hk
  | read => simp [BuildArgs.items, BuildArgs.watchReps, (hnone gi.1).1] at hj
  | params => simp [BuildArgs.items, (hnone gi.1).2] at hj

/-- The resident partial products start after 128 columns of `2 ^ 25` values. -/
theorem not_offsetsFit_residentRecursion :
    ∃ c : BuiltCircuit, c.toCommonCircuitData = residentRecursion ∧
      c.layout.numLdes .constantsSigmas = 84 ∧ c.layout.numLdes .wires = 44 ∧
      c.args = largeArgs ∧ ¬ c.OffsetsFit := by
  obtain ⟨s, hs, -⟩ := schedule_ok .insertion largeArgs_allReady (Nat.zero_lt_one) .custom
  refine ⟨{ residentRecursion with
    layout := residentLayout
    args := largeArgs
    schedule := s
    numWires_eq := rfl
    degree_eq := rfl
    scheduled := ⟨.insertion, .custom, hs⟩
    planned := largeArgs_planned s }, rfl, rfl, rfl, rfl, ?_⟩
  intro hfit
  have hlt : (84 + 44) * 2 ^ (22 + 3) < 2 ^ 32 :=
    (Offset.shifted_fits.mp (hfit _ .zppsLdeStart)).2
  exact absurd hlt (by decide)

end MegaZK
