import MegaZK.Lib.Word

/-! # Field elements of five limbs

`FieldElement51` of the curve generators: numbers modulo `2 ^ 255 - 19` in limbs of 51 bits, with
the carries between the limbs delayed. -/

namespace MegaZK

open Words

/-- `LOW_51_BIT_MASK`. -/
def low51BitMask : ℕ := 1 <<< 51 - 1

/-- `uint64_t limbs[5]`. -/
structure FieldElement51 where
  l0 : ℕ
  l1 : ℕ
  l2 : ℕ
  l3 : ℕ
  l4 : ℕ
deriving DecidableEq

namespace FieldElement51

def one : FieldElement51 := ⟨1, 0, 0, 0, 0⟩

/-- `EDWARDS_D`. -/
def edwardsD : FieldElement51 :=
  ⟨929955233495203, 466365720129213, 1662059464998953, 2033849074728123, 1442794654840575⟩

/-- `SQRT_M1`. -/
def sqrtM1 : FieldElement51 :=
  ⟨1718705420411056, 234908883556509, 2233514472574048, 2117202627021982, 765476049583133⟩

/-! ### Sums and differences -/

/-- `operator+`, which does not reduce. -/
def add (a b : FieldElement51) : Words FieldElement51 := do
  let l0 ← word 64 (a.l0 + b.l0)
  let l1 ← word 64 (a.l1 + b.l1)
  let l2 ← word 64 (a.l2 + b.l2)
  let l3 ← word 64 (a.l3 + b.l3)
  let l4 ← word 64 (a.l4 + b.l4)
  return ⟨l0, l1, l2, l3, l4⟩

/-- `reduce`: every limb passes its carry on, the last one to the first. -/
def reduce (a : FieldElement51) : Words FieldElement51 := do
  let fold ← word 64 (a.l4 >>> 51 * 19)
  let l0 ← word 64 ((a.l0 &&& low51BitMask) + fold)
  let l1 ← word 64 ((a.l1 &&& low51BitMask) + a.l0 >>> 51)
  let l2 ← word 64 ((a.l2 &&& low51BitMask) + a.l1 >>> 51)
  let l3 ← word 64 ((a.l3 &&& low51BitMask) + a.l2 >>> 51)
  let l4 ← word 64 ((a.l4 &&& low51BitMask) + a.l3 >>> 51)
  return ⟨l0, l1, l2, l3, l4⟩

/-- A multiple of the order, which keeps the differences of the limbs above zero. -/
def bias : FieldElement51 :=
  ⟨36028797018963664, 36028797018963952, 36028797018963952, 36028797018963952, 36028797018963952⟩

/-- The differences of `operator-`. -/
def subLimbs (a b : FieldElement51) : Words FieldElement51 := do
  let l0 ← wordSub 64 a.l0 b.l0
  let l1 ← wordSub 64 a.l1 b.l1
  let l2 ← wordSub 64 a.l2 b.l2
  let l3 ← wordSub 64 a.l3 b.l3
  let l4 ← wordSub 64 a.l4 b.l4
  return ⟨l0, l1, l2, l3, l4⟩

/-- `operator-` with two operands. -/
def sub (a b : FieldElement51) : Words FieldElement51 := do
  let biased ← a.add bias
  let limbs ← biased.subLimbs b
  limbs.reduce

/-- `operator-` with one operand. -/
def neg (a : FieldElement51) : Words FieldElement51 := do
  let limbs ← bias.subLimbs a
  limbs.reduce

/-! ### Products -/

/-- The carries between the columns `c0, …, c4` of a product. The low 51 bits of a column are those
of its low word. -/
def carryColumns (c0 c1 c2 c3 c4 : ℕ) : Words FieldElement51 := do
  let carry ← word 64 (c0 >>> 51)
  let c1 ← word 128 (c1 + carry)
  let carry ← word 64 (c1 >>> 51)
  let c2 ← word 128 (c2 + carry)
  let carry ← word 64 (c2 >>> 51)
  let c3 ← word 128 (c3 + carry)
  let carry ← word 64 (c3 >>> 51)
  let c4 ← word 128 (c4 + carry)
  let carry ← word 64 (c4 >>> 51)
  let fold ← word 64 (carry * 19)
  let l0 ← word 64 ((c0 % 2 ^ 64 &&& low51BitMask) + fold)
  let l1 ← word 64 ((c1 % 2 ^ 64 &&& low51BitMask) + l0 >>> 51)
  return ⟨l0 &&& low51BitMask, l1, c2 % 2 ^ 64 &&& low51BitMask, c3 % 2 ^ 64 &&& low51BitMask,
    c4 % 2 ^ 64 &&& low51BitMask⟩

/-- `operator*`. -/
def mul (a b : FieldElement51) : Words FieldElement51 := do
  let b1_19 ← word 64 (b.l1 * 19)
  let b2_19 ← word 64 (b.l2 * 19)
  let b3_19 ← word 64 (b.l3 * 19)
  let b4_19 ← word 64 (b.l4 * 19)
  let c0 ← dot 128 [(a.l0, b.l0), (a.l4, b1_19), (a.l3, b2_19), (a.l2, b3_19), (a.l1, b4_19)] 0
  let c1 ← dot 128 [(a.l1, b.l0), (a.l0, b.l1), (a.l4, b2_19), (a.l3, b3_19), (a.l2, b4_19)] 0
  let c2 ← dot 128 [(a.l2, b.l0), (a.l1, b.l1), (a.l0, b.l2), (a.l4, b3_19), (a.l3, b4_19)] 0
  let c3 ← dot 128 [(a.l3, b.l0), (a.l2, b.l1), (a.l1, b.l2), (a.l0, b.l3), (a.l4, b4_19)] 0
  let c4 ← dot 128 [(a.l4, b.l0), (a.l3, b.l1), (a.l2, b.l2), (a.l1, b.l3), (a.l0, b.l4)] 0
  carryColumns c0 c1 c2 c3 c4

/-- `m(x, y) + 2 * (m(x1, y1) + m(x2, y2))`. -/
def squareColumn (x y x1 y1 x2 y2 : ℕ) : Words ℕ := do
  let product ← word 128 (x * y)
  let sum ← dot 128 [(x1, y1), (x2, y2)] 0
  let double ← word 128 (2 * sum)
  word 128 (product + double)

/-- The body of the loop of `pow2k`. -/
def pow2kStep (a : FieldElement51) : Words FieldElement51 := do
  let a3_19 ← word 64 (19 * a.l3)
  let a4_19 ← word 64 (19 * a.l4)
  let c0 ← squareColumn a.l0 a.l0 a.l1 a4_19 a.l2 a3_19
  let c1 ← squareColumn a.l3 a3_19 a.l0 a.l1 a.l2 a4_19
  let c2 ← squareColumn a.l1 a.l1 a.l0 a.l2 a.l4 a3_19
  let c3 ← squareColumn a.l4 a4_19 a.l0 a.l3 a.l1 a.l2
  let c4 ← squareColumn a.l2 a.l2 a.l0 a.l4 a.l1 a.l3
  carryColumns c0 c1 c2 c3 c4

/-- The loop of `pow2k`, where `k` has been decremented. -/
def pow2kLoop : ℕ → FieldElement51 → Words FieldElement51
  | 0, a => a.pow2kStep
  | k + 1, a => do
    let a ← a.pow2kStep
    pow2kLoop k a

/-- `pow2k`. The first decrement of zero wraps. -/
def pow2k (a : FieldElement51) (k : ℕ) : Words FieldElement51 :=
  pow2kLoop ((k + 2 ^ 32 - 1) % 2 ^ 32) a

def square (a : FieldElement51) : Words FieldElement51 := a.pow2k 1

/-! ### Bytes -/

/-- The limbs that `as_bytes` makes canonical. -/
def canonicalLimbs (a : FieldElement51) : Words FieldElement51 := do
  let q ← word 64 (a.l0 + 19)
  let q ← word 64 (a.l1 + q >>> 51)
  let q ← word 64 (a.l2 + q >>> 51)
  let q ← word 64 (a.l3 + q >>> 51)
  let q ← word 64 (a.l4 + q >>> 51)
  let fold ← word 64 (19 * (q >>> 51))
  let l0 ← word 64 (a.l0 + fold)
  let l1 ← word 64 (a.l1 + l0 >>> 51)
  let l2 ← word 64 (a.l2 + l1 >>> 51)
  let l3 ← word 64 (a.l3 + l2 >>> 51)
  let l4 ← word 64 (a.l4 + l3 >>> 51)
  return ⟨l0 &&& low51BitMask, l1 &&& low51BitMask, l2 &&& low51BitMask, l3 &&& low51BitMask,
    l4 &&& low51BitMask⟩

/-- The bytes that `as_bytes` cuts the limbs into. -/
def limbBytes (a : FieldElement51) : Words (List ℕ) := do
  let high1 ← word 64 (a.l1 <<< 3)
  let high2 ← word 64 (a.l2 <<< 6)
  let high3 ← word 64 (a.l3 <<< 1)
  let high4 ← word 64 (a.l4 <<< 4)
  return [a.l0, a.l0 >>> 8, a.l0 >>> 16, a.l0 >>> 24, a.l0 >>> 32, a.l0 >>> 40,
    a.l0 >>> 48 ||| high1, a.l1 >>> 5, a.l1 >>> 13, a.l1 >>> 21, a.l1 >>> 29, a.l1 >>> 37,
    a.l1 >>> 45 ||| high2, a.l2 >>> 2, a.l2 >>> 10, a.l2 >>> 18, a.l2 >>> 26, a.l2 >>> 34,
    a.l2 >>> 42, a.l2 >>> 50 ||| high3, a.l3 >>> 7, a.l3 >>> 15, a.l3 >>> 23, a.l3 >>> 31,
    a.l3 >>> 39, a.l3 >>> 47 ||| high4, a.l4 >>> 4, a.l4 >>> 12, a.l4 >>> 20, a.l4 >>> 28,
    a.l4 >>> 36, a.l4 >>> 44].map (· &&& 0xFF)

/-- `as_bytes`. -/
def asBytes (a : FieldElement51) : Words (List ℕ) := do
  let reduced ← a.reduce
  let limbs ← reduced.canonicalLimbs
  limbs.limbBytes

/-- `load8`: eight bytes from byte `i` on. -/
def load8 (bytes : ℕ → ℕ) (i : ℕ) : ℕ :=
  (List.range 8).foldl (fun word j => word ||| bytes (i + j) <<< (8 * j)) 0

/-- `from_bytes`. -/
def fromBytes (bytes : ℕ → ℕ) : FieldElement51 where
  l0 := load8 bytes 0 &&& low51BitMask
  l1 := load8 bytes 6 >>> 3 &&& low51BitMask
  l2 := load8 bytes 12 >>> 6 &&& low51BitMask
  l3 := load8 bytes 19 >>> 1 &&& low51BitMask
  l4 := load8 bytes 24 >>> 12 &&& low51BitMask

end FieldElement51

end MegaZK
