import MegaZK.BigUint.DivRem
import MegaZK.BigUint.Orders
import MegaZK.Goldilocks
import MegaZK.Lib.PrimeDigits
import Mathlib.Data.List.GetD

/-! # Big numbers in the witness

A number is kept in the witness as limbs of 32 bits, from the lowest. The host's `BigUint` is a
natural number here. -/

namespace MegaZK

open Horner Radix

/-- `get_biguint_target`. -/
def getBigUintTarget (numLimbs : ℕ) (limb : ℕ → GoldilocksField) : ℕ :=
  (List.range numLimbs).reverse.foldl (fun acc i => acc <<< 32 + (limb i).val) 0

/-- The limbs of a number. -/
def u32Limbs (numLimbs value : ℕ) : List GoldilocksField :=
  (List.range numLimbs).map fun i => ((value / (2 ^ 32) ^ i % 2 ^ 32 : ℕ) : GoldilocksField)

/-- `set_biguint_target`, which panics where the number has more limbs than the target. -/
def setBigUintTarget (numLimbs value : ℕ) : Option (List GoldilocksField) :=
  if value < (2 ^ 32) ^ numLimbs then some (u32Limbs numLimbs value) else none

lemma getBigUintTarget_eq (numLimbs : ℕ) (limb : ℕ → GoldilocksField) :
    getBigUintTarget numLimbs limb = evalSum (fun i => (limb i).val) numLimbs (2 ^ 32) := by
  have hfold : ∀ (n acc : ℕ), (List.range n).reverse.foldl
      (fun acc i => acc <<< 32 + (limb i).val) acc =
        hornerFrom (fun i => (limb i).val) (2 ^ 32) n acc := by
    intro n
    induction n with
    | zero =>
      intro acc
      rfl
    | succ n ih =>
      intro acc
      rw [List.range_succ, List.reverse_append, List.reverse_singleton, List.singleton_append,
        List.foldl_cons, ih, hornerFrom, Nat.shiftLeft_eq]
  rw [getBigUintTarget, hfold, hornerFrom_eq, zero_mul, zero_add]

namespace BigUint

/-- The digits that a function of the source sets one by one. -/
def ofDigits (digits : List ℕ) (h : digits.length ≤ maxDigits) : BigUint where
  digit i := digits.getD i 0 % 2 ^ 32
  digit_lt _ := Nat.mod_lt _ (by norm_num)
  length := digits.length
  length_le := h

/-- The limbs that a kernel writes: `base_field::from_u64` of the first digits. -/
def writeDigits (x : BigUint) (numLimbs : ℕ) : List GoldilocksField :=
  (List.range numLimbs).map fun i => (x.digit i : GoldilocksField)

variable {x : BigUint}

lemma clean_ofDigits {digits : List ℕ} (h : digits.length ≤ maxDigits) :
    (ofDigits digits h).Clean := by
  intro i hi
  change digits.getD i 0 % 2 ^ 32 = 0
  rw [List.getD_eq_default _ _ hi, Nat.zero_mod]

/-- A digit is read off the number. -/
lemma Clean.digit_eq (hx : x.Clean) (i : ℕ) : x.digit i = x.value / (2 ^ 32) ^ i % 2 ^ 32 := by
  rcases lt_or_ge i x.length with hi | hi
  · exact (PrimeDigits.evalSum_div_mod (fun j _ => x.digit_lt j) hi).symm
  · have hlt : x.value < (2 ^ 32) ^ i :=
      x.value_lt.trans_le (Nat.pow_le_pow_right (by norm_num) hi)
    rw [hx i hi, Nat.div_eq_of_lt hlt, Nat.zero_mod]

lemma Clean.writeDigits_eq (hx : x.Clean) (numLimbs : ℕ) :
    x.writeDigits numLimbs = u32Limbs numLimbs x.value := by
  apply List.map_congr_left
  intro i _
  rw [hx.digit_eq i]

end BigUint

end MegaZK
