import MegaZK.Lib.Radix

/-! # Big natural numbers of the generator kernels

`BigUint`: eighteen 32-bit digits and a length. An access outside the digit array is undefined,
which is `none`. -/

namespace MegaZK

open Horner

/-- `MAX_DIGITS`. -/
def maxDigits : ℕ := 18

/-- `uint32_t digits[MAX_DIGITS]`. -/
structure DigitArray where
  digit : ℕ → ℕ
  digit_lt : ∀ i, digit i < 2 ^ 32

namespace DigitArray

/-- `initBigUint`. -/
def init : DigitArray := ⟨fun _ => 0, fun _ => by norm_num⟩

def load (d : DigitArray) (i : ℕ) : Option ℕ := if i < maxDigits then some (d.digit i) else none

/-- The array after a store: the value is truncated. -/
def update (d : DigitArray) (i x : ℕ) : DigitArray where
  digit := Function.update d.digit i (x % 2 ^ 32)
  digit_lt := by
    intro k
    rcases eq_or_ne k i with rfl | hk
    · simpa using Nat.mod_lt x (by norm_num)
    · simpa [Function.update_of_ne hk] using d.digit_lt k

def store (d : DigitArray) (i x : ℕ) : Option DigitArray :=
  if i < maxDigits then some (d.update i x) else none

/-- The loop of `trim`. -/
def trimLength (d : DigitArray) : ℕ → ℕ
  | 0 => 0
  | n + 1 => if d.digit n = 0 then d.trimLength n else n + 1

end DigitArray

/-- `BigUint`. -/
structure BigUint extends DigitArray where
  length : ℕ
  length_le : length ≤ maxDigits

namespace BigUint

/-- The number that the digits below the length stand for. -/
def value (x : BigUint) : ℕ := evalSum x.digit x.length (2 ^ 32)

/-! ### Constructors -/

lemma trimLength_le (d : DigitArray) (n : ℕ) : d.trimLength n ≤ n := by
  induction n with
  | zero => exact le_rfl
  | succ n ih =>
    rw [DigitArray.trimLength]
    split_ifs
    · exact ih.trans (Nat.le_succ n)
    · exact le_rfl

/-- `trim` of an array with a length that may be one too large. -/
def trim (d : DigitArray) (length : ℕ) : Option BigUint :=
  if h : length ≤ maxDigits then
    some ⟨d, d.trimLength length, (trimLength_le d length).trans h⟩
  else none

/-- `BigUint::zero`: one digit, which is zero. -/
def zero : BigUint := ⟨.init, 1, by decide⟩

/-- `BigUint::one`. -/
def one : BigUint := ⟨DigitArray.init.update 0 1, 1, by decide⟩

/-- `BigUint(uint64_t value)`. -/
def ofU64 (value : ℕ) : Option BigUint :=
  trim ((DigitArray.init.update 0 value).update 1 ((value % 2 ^ 64) >>> 32)) 2

/-- The loop over the limbs of `to_canonical_biguint` and `from_bytes_le`. -/
def limbDigits (limbs : ℕ → ℕ) : ℕ → DigitArray
  | 0 => .init
  | i + 1 => ((limbDigits limbs i).update (2 * i) (limbs i)).update (2 * i + 1)
      ((limbs i % 2 ^ 64) >>> 32)

/-- The digits of four limbs, trimmed as in `to_canonical_biguint`. -/
def ofLimbs (limbs : ℕ → ℕ) : Option BigUint := trim (limbDigits limbs 4) 8

/-- The limbs of `from_bytes_le`: `acc = (acc << 8) | bytes[j]`, from the last byte down. -/
def byteLimb (bytes : ℕ → ℕ) (i : ℕ) : ℕ :=
  (List.range 8).foldl (fun acc j => (acc <<< 8 ||| bytes ((i + 1) * 8 - 1 - j) % 2 ^ 8) % 2 ^ 64) 0

/-- `from_bytes_le`. The length is not trimmed. -/
def fromBytesLe (bytes : ℕ → ℕ) : BigUint := ⟨limbDigits (byteLimb bytes) 4, 8, by decide⟩

def isZero (x : BigUint) : Bool := (x.length == 1 && x.digit 0 == 0) || x.length == 0

def isOne (x : BigUint) : Bool := x.length == 1 && x.digit 0 == 1

/-! ### Sums and differences -/

/-- The loop of `operator+`. -/
def addLoop (x y : BigUint) (maxLength : ℕ) : ℕ → ℕ → ℕ → DigitArray → Option DigitArray
  | 0, _, _, _ => none
  | fuel + 1, i, carry, result =>
    if i < maxLength ∨ carry ≠ 0 then do
      let carry := carry + (← x.load i) + (← y.load i)
      let result ← result.store i carry
      addLoop x y maxLength fuel (i + 1) (carry >>> 32) result
    else some result

/-- `operator+`. -/
def add (x y : BigUint) : Option BigUint :=
  if x.isZero then some y
  else if y.isZero then some x
  else do
    let maxLength := max x.length y.length
    let result ← addLoop x y maxLength (maxDigits + 1) 0 0 .init
    trim result (maxLength + 1)

/-- The loop of `operator-`. -/
def subLoop (x y : BigUint) : ℕ → ℕ → ℤ → DigitArray → DigitArray
  | 0, _, _, result => result
  | n + 1, i, borrow, result =>
    let diff : ℤ := x.digit i - y.digit i - borrow
    let borrow : ℤ := if diff < 0 then 1 else 0
    let diff := if diff < 0 then diff + 2 ^ 32 else diff
    subLoop x y n (i + 1) borrow (result.update i diff.toNat)

/-- `operator-`. -/
def sub (x y : BigUint) : Option BigUint :=
  if y.isZero then some x
  else trim (subLoop x y x.length 0 0 .init) x.length

/-! ### Products -/

/-- The inner loop of `operator*`. -/
def mulRow (x y : BigUint) (i : ℕ) : ℕ → ℕ → ℕ → DigitArray → Option DigitArray
  | 0, _, _, _ => none
  | fuel + 1, j, carry, result =>
    if j < y.length ∨ carry ≠ 0 then do
      let prod := (x.digit i * (← y.load j) + (← result.load (i + j)) + carry) % 2 ^ 64
      let result ← result.store (i + j) prod
      mulRow x y i fuel (j + 1) (prod >>> 32) result
    else some result

/-- The outer loop of `operator*`. -/
def mulLoop (x y : BigUint) : ℕ → ℕ → DigitArray → Option DigitArray
  | 0, _, result => some result
  | n + 1, i, result => do
    let result ← mulRow x y i (maxDigits + 1) 0 0 result
    mulLoop x y n (i + 1) result

/-- `operator*`. -/
def mul (x y : BigUint) : Option BigUint :=
  if x.isZero || y.isZero then some zero
  else if x.isOne then some y
  else if y.isOne then some x
  else do
    let result ← mulLoop x y x.length 0 .init
    trim result (x.length + y.length + 1)

/-! ### Shifts -/

/-- The loop of `operator<<`, which ends with its carry. -/
def shlLoop (x : BigUint) (wordShift bitShift : ℕ) :
    ℕ → ℕ → ℕ → DigitArray → Option (DigitArray × ℕ)
  | 0, _, carry, result => some (result, carry)
  | n + 1, i, carry, result => do
    let temp := x.digit i <<< bitShift ||| carry
    let result ← result.store (i + wordShift) temp
    shlLoop x wordShift bitShift n (i + 1) (temp >>> 32) result

/-- `operator<<`. The digits below the word shift are zero already. -/
def shl (x : BigUint) (shift : ℕ) : Option BigUint :=
  if shift = 0 then some x
  else do
    let wordShift := shift / 32
    let (result, carry) ← shlLoop x wordShift (shift % 32) x.length 0 0 .init
    let result ← if carry ≠ 0 then result.store (x.length + wordShift) carry else some result
    trim result (x.length + wordShift + 1)

/-- The loop of `operator>>`, from the top digit down to the word shift. -/
def shrLoop (x : BigUint) (wordShift bitShift : ℕ) : ℕ → ℕ → DigitArray → DigitArray
  | 0, _, result => result
  | n + 1, carry, result =>
    let temp := carry <<< 32 ||| x.digit (n + wordShift)
    shrLoop x wordShift bitShift n (temp % 2 ^ 32) (result.update n (temp >>> bitShift))

/-- `operator>>`. The length is not trimmed. -/
def shr (x : BigUint) (shift : ℕ) : BigUint :=
  if shift = 0 then x
  else if x.length ≤ shift / 32 then zero
  else ⟨shrLoop x (shift / 32) (shift % 32) (x.length - shift / 32) 0 .init,
    x.length - shift / 32, (Nat.sub_le _ _).trans x.length_le⟩

/-! ### Comparisons -/

/-- The loop of `operator<`. -/
def ltLoop (x y : BigUint) : ℕ → Bool
  | 0 => false
  | n + 1 => if x.digit n ≠ y.digit n then x.digit n < y.digit n else ltLoop x y n

/-- `operator<`. -/
def lt (x y : BigUint) : Bool :=
  if x.length ≠ y.length then x.length < y.length else ltLoop x y x.length

/-- The loop of `operator==`. -/
def eqLoop (x y : BigUint) : ℕ → Bool
  | 0 => true
  | n + 1 => if x.digit n ≠ y.digit n then false else eqLoop x y n

/-- `operator==`. -/
def eq (x y : BigUint) : Bool := if x.length ≠ y.length then false else eqLoop x y x.length

/-- `operator<=`. -/
def le (x y : BigUint) : Bool := x.lt y || x.eq y

/-- `operator>`. -/
def gt (x y : BigUint) : Bool := !x.le y

/-- `operator>=`. -/
def ge (x y : BigUint) : Bool := !x.lt y

end BigUint

end MegaZK
