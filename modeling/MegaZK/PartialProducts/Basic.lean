import MegaZK.Assembly.Shape
import MegaZK.Kernel
import MegaZK.Lib.Dft
import MegaZK.Lib.Scan

/-! # Partial products on the device

`PartialProductsService::zp` and the kernels of `wires.cu`. Indices are computed in 32 bits;
`tid` is an `int`, the other indices are `unsigned`. -/

namespace MegaZK

open Grid Scan Dft

variable {F : Type} [Field F]

/-- The arguments of the permutation that are not columns of the layout. -/
structure PermutationInputs (F : Type) where
  subgroup : ℕ → F
  kIs : ℕ → F
  betas : ℕ → F
  gammas : ℕ → F

/-! ### The kernels -/

/-- The factor of wire `j` in row `row` for challenge `k`. -/
def PermutationInputs.quotient (p : PermutationInputs F) (k row j : ℕ) (wire sSigma : F) : F :=
  let sId := p.kIs j * p.subgroup row
  let numerator := wire + p.betas k * sId + p.gammas k
  let denominator := wire + p.betas k * sSigma + p.gammas k
  numerator * denominator⁻¹

/-- `wires_permutation_partial_products_kernel_trans`. The pointers to the wires and the sigmas
are given by what lies behind them. -/
def wiresPermutationPartialProductsTrans (p : PermutationInputs F) (witness sSigmas : ℕ → F)
    (qv : DeviceBuffer F) (degree degree2 gy gx bx : ℕ) : Except DeviceError (DeviceBuffer F) := do
  let ths ← launch gy gx bx
  qv.store ths (fun th => i32 (th.y * gx * bx + th.x * bx + th.t)) fun th =>
    (List.range (u32 degree)).foldl
      (fun acc i =>
        let j := th.t * degree + i
        p.quotient th.y th.x (i32 j).toNat (witness (u32 (j * degree2 + th.x)))
          (sSigmas (u32 (th.x + j * degree2))) * acc)
      1

/-- `scan_part_kernel`: each block scans its cells in shared memory, stores them and stores the
product of the block. -/
def scanPart (qv part pp : DeviceBuffer F) (length gy gx bx : ℕ) :
    Except DeviceError (DeviceBuffer F × DeviceBuffer F) := do
  let ths ← launch gy gx bx
  let tid := fun th : Thread => (th.y * gx + th.x) * bx + th.t
  let shm := fun th : Thread =>
    (scanLoop 0 bx fun t =>
      if u32 (tid { th with t := t }) < u32 length then
        qv.cell (i32 (tid { th with t := t })).toNat
      else 0).2 th.t
  let pp ← pp.store (ths.filter fun th => u32 (tid th) < u32 length) (fun th => i32 (tid th)) shm
  let part ← part.store (ths.filter fun th => th.t = bx - 1) (fun th => i32 (th.y * gx + th.x)) shm
  return (part, pp)

/-- `scan_part_product_kernel`: one thread scans the block products of both challenges. -/
def scanPartProduct (part : DeviceBuffer F) (partNum : ℕ) :
    Except DeviceError (DeviceBuffer F) := do
  let _ ← launch 1 1 1
  let n := u32 partNum
  let n2 := u32 (2 * n)
  if ∀ i < max n n2, 0 ≤ i32 i ∧ i32 i < part.len then
    .ok { part with cell := (scanLoop n (n2 - n) (scanLoop 0 n part.cell).2).2 }
  else .error .outOfBounds

/-- `mul_part_product_kernel`. -/
def mulPartProduct (part pp : DeviceBuffer F) (length gy gx bx : ℕ) :
    Except DeviceError (DeviceBuffer F) := do
  let ths ← launch gy gx bx
  let tid := fun th : Thread => (th.y * gx + th.x) * bx + th.t
  pp.store (ths.filter fun th => th.x ≠ 0 ∧ u32 (tid th) < u32 length) (fun th => i32 (tid th))
    fun th => pp.cell (i32 (tid th)).toNat * part.cell (i32 (th.y * gx + th.x) - 1).toNat

/-- The cell that `matrix_trans_kernel` writes, behind its output pointer. -/
def matrixTransDst (gx bx : ℕ) (th : Thread) : ℤ :=
  if th.t = bx - 1 then
    if th.x = gx - 1 then u32 (th.y * gx) else u32 (th.y * gx + th.x + 1)
  else (th.y * gx * bx + ((th.t : ℤ) + 2 - th.y) * gx + th.x) % 2 ^ 32

/-- `matrix_trans_kernel`: the last product of a row is `Z` in the next row. -/
def matrixTrans (pp fp : DeviceBuffer F) (offset gy gx bx : ℕ) :
    Except DeviceError (DeviceBuffer F) := do
  let ths ← launch gy gx bx
  fp.store ths (fun th => offset + matrixTransDst gx bx th) fun th =>
    if th.t = bx - 1 ∧ th.x = gx - 1 then 1
    else pp.cell (u32 (th.y * gx * bx + th.x * bx + th.t))

/-- `batch_ntt_in_place` of columns that follow each other, in natural order on both sides. The
transform of one column is a parameter. -/
def batchNttInPlace (transform : (ℕ → F) → ℕ → F) (b : DeviceBuffer F) (logN numNtts offset : ℕ) :
    Except DeviceError (DeviceBuffer F) :=
  let n := 2 ^ logN
  if u32 (numNtts * n) ≤ b.len then
    if offset + numNtts * n ≤ b.len then
      .ok { b with
        cell := fun a =>
          if offset ≤ a ∧ a < offset + numNtts * n then
            transform (fun i => b.cell (offset + (a - offset) / n * n + i)) ((a - offset) % n)
          else b.cell a }
    else .error .outOfBounds
  else .error .assertion

/-! ### The service -/

structure PartialProductConfig where
  quotientDegreeFactor : ℕ
  degree : ℕ
  degreeBits : ℕ
  numRoutedWires : ℕ
  numChallenges : ℕ
  numConstants : ℕ

structure PartialProductScratch (F : Type) where
  qv : DeviceBuffer F
  part : DeviceBuffer F
  pp : DeviceBuffer F

/-- `PartialProductScratch::new`; the memory is not initialised. -/
def PartialProductScratch.alloc (length : ℕ) (qv part pp : ℕ → F) : PartialProductScratch F where
  qv := ⟨length, qv⟩
  part := ⟨(length + 127) / 128, part⟩
  pp := ⟨length, pp⟩

/-- `PartialProductsService::zp`. -/
def zp (cfg : PartialProductConfig) (layout : PolyCounts) (ω : F) (p : PermutationInputs F)
    (scratch : PartialProductScratch F) (fp : DeviceBuffer F) :
    Except DeviceError (DeviceBuffer F) := do
  let degree := cfg.quotientDegreeFactor
  let degree2 := cfg.degree
  let threadX := u32 (cfg.numRoutedWires / degree)
  let offset := cfg.numConstants * degree2
  let numNtts := 2 * cfg.numRoutedWires
  let fp ← batchNttInPlace (dft ω (2 ^ cfg.degreeBits)) fp cfg.degreeBits (u32 numNtts) (u32 offset)
  let qv ← wiresPermutationPartialProductsTrans p
    (fun a => fp.cell (degree2 * layout.offset .wires + a)) (fun a => fp.cell (offset + a))
    scratch.qv degree degree2 (u32 cfg.numChallenges) (u32 degree2) threadX
  let fp ← batchNttInPlace (idft ω (2 ^ cfg.degreeBits)) fp cfg.degreeBits (u32 numNtts) (u32 offset)
  let partSize := 128
  let partLen := cfg.numRoutedWires * degree2 / degree
  let partNum := (partLen + partSize - 1) / partSize
  let length := cfg.numChallenges * partLen
  let (part, pp) ← scanPart qv scratch.part scratch.pp length (u32 cfg.numChallenges) (u32 partNum)
    partSize
  let part ← scanPartProduct part partNum
  let pp ← mulPartProduct part pp length (u32 cfg.numChallenges) (u32 partNum) partSize
  matrixTrans pp fp (degree2 * layout.offset .partialProducts) (u32 cfg.numChallenges) (u32 degree2)
    threadX

end MegaZK
