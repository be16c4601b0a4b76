import MegaZK.Curve25519.Arithmetic
import MegaZK.Lib.PrimeDigits
import Mathlib.Data.List.GetD

/-! # The encoding of field elements

`as_bytes` writes the canonical number of a field element, and `from_bytes` reads it back. -/

namespace MegaZK.FieldElement51

open Words Horner Radix

variable {a : FieldElement51}

/-- The quotient by the order, predicted by the carries of the number plus 19. -/
lemma canonicalLimbs_exact (ha : a.Below (2 ^ 51 + 2 ^ 18)) :
    Exact a.canonicalLimbs fun r => r.value = a.value % ed25519Order ∧ r.Below (2 ^ 51) := by
  obtain ⟨h0, h1, h2, h3, h4⟩ := ha
  have horder : ed25519Order = 2 ^ 255 - 19 := rfl
  rw [horder, value]
  unfold canonicalLimbs
  simp only [and_low51BitMask, Nat.shiftRight_eq_div_pow]
  refine .bind (.word (by omega)) fun q0 hq0 => ?_
  refine .bind (.word (by omega)) fun q1 hq1 => ?_
  refine .bind (.word (by omega)) fun q2 hq2 => ?_
  refine .bind (.word (by omega)) fun q3 hq3 => ?_
  refine .bind (.word (by omega)) fun q4 hq4 => ?_
  refine .bind (.word (by omega)) fun fold hfold => ?_
  refine .bind (.word (by omega)) fun l0 hl0 => ?_
  refine .bind (.word (by omega)) fun l1 hl1 => ?_
  refine .bind (.word (by omega)) fun l2 hl2 => ?_
  refine .bind (.word (by omega)) fun l3 hl3 => ?_
  refine .bind (.word (by omega)) fun l4 hl4 => ?_
  refine .pure ⟨?_, below_mk (by omega) (by omega) (by omega) (by omega) (by omega)⟩
  generalize hn : a.l0 + 2 ^ 51 * a.l1 + 2 ^ 102 * a.l2 + 2 ^ 153 * a.l3 + 2 ^ 204 * a.l4 = n
  have hq : q4 / 2 ^ 51 = (n + 19) / 2 ^ 255 := by omega
  have hvalue : l0 % 2 ^ 51 + 2 ^ 51 * (l1 % 2 ^ 51) + 2 ^ 102 * (l2 % 2 ^ 51) +
      2 ^ 153 * (l3 % 2 ^ 51) + 2 ^ 204 * (l4 % 2 ^ 51) =
      (n + 19 * ((n + 19) / 2 ^ 255)) % 2 ^ 255 := by omega
  have hlt : n < 2 ^ 255 + 2 ^ 223 := by omega
  refine hvalue.trans ?_
  rcases lt_or_ge n (2 ^ 255 - 19) with hn | hn
  · rw [Nat.mod_eq_of_lt hn]
    omega
  · rw [Nat.mod_eq_sub_mod hn]
    omega

/-- Or-ing in bits above all bits of a number. -/
lemma or_shiftLeft {x k : ℕ} (y : ℕ) (hx : x < 2 ^ k) : x ||| y <<< k = x + y * 2 ^ k := by
  rw [Nat.or_comm, ← Nat.shiftLeft_add_eq_or_of_lt hx, Nat.shiftLeft_eq, add_comm]

/-- The bytes of a number, from the lowest. -/
def bytesOf (n : ℕ) : List ℕ := (List.range 32).map fun i => n / 256 ^ i % 256

lemma limbBytes_exact (ha : a.Below (2 ^ 51)) : Exact a.limbBytes (· = bytesOf a.value) := by
  obtain ⟨h0, h1, h2, h3, h4⟩ := ha
  have hmask : ∀ x : ℕ, x &&& 0xFF = x % 256 := fun x => Nat.and_two_pow_sub_one_eq_mod x 8
  unfold limbBytes
  refine .bind (.word (by rw [Nat.shiftLeft_eq]; omega)) fun high1 hhigh1 => ?_
  refine .bind (.word (by rw [Nat.shiftLeft_eq]; omega)) fun high2 hhigh2 => ?_
  refine .bind (.word (by rw [Nat.shiftLeft_eq]; omega)) fun high3 hhigh3 => ?_
  refine .bind (.word (by rw [Nat.shiftLeft_eq]; omega)) fun high4 hhigh4 => ?_
  have hor1 : a.l0 >>> 48 ||| a.l1 <<< 3 = a.l0 / 2 ^ 48 + a.l1 * 2 ^ 3 := by
    rw [Nat.shiftRight_eq_div_pow, or_shiftLeft a.l1 (by omega)]
  have hor2 : a.l1 >>> 45 ||| a.l2 <<< 6 = a.l1 / 2 ^ 45 + a.l2 * 2 ^ 6 := by
    rw [Nat.shiftRight_eq_div_pow, or_shiftLeft a.l2 (by omega)]
  have hor3 : a.l2 >>> 50 ||| a.l3 <<< 1 = a.l2 / 2 ^ 50 + a.l3 * 2 ^ 1 := by
    rw [Nat.shiftRight_eq_div_pow, or_shiftLeft a.l3 (by omega)]
  have hor4 : a.l3 >>> 47 ||| a.l4 <<< 4 = a.l3 / 2 ^ 47 + a.l4 * 2 ^ 4 := by
    rw [Nat.shiftRight_eq_div_pow, or_shiftLeft a.l4 (by omega)]
  refine .pure ?_
  rw [bytesOf, value, hhigh1, hhigh2, hhigh3, hhigh4, hor1, hor2, hor3, hor4]
  simp only [Nat.shiftRight_eq_div_pow, List.map_cons, List.map_nil, hmask,
    List.range_succ_eq_map, List.range_zero, Nat.succ_eq_add_one, List.cons.injEq, and_true,
    Nat.reduceAdd, Nat.reducePow]
  constructorm* _ ∧ _
  all_goals omega

section FromBytes

variable {bytes : ℕ → ℕ} (hbytes : ∀ i, bytes i < 256)
include hbytes

lemma load8_eq_evalSum (i : ℕ) : load8 bytes i = evalSum (fun j => bytes (i + j)) 8 256 := by
  have hfold : ∀ n, (List.range n).foldl (fun word j => word ||| bytes (i + j) <<< (8 * j)) 0 =
      evalSum (fun j => bytes (i + j)) n 256 := by
    intro n
    induction n with
    | zero => simp
    | succ n ih =>
      have hlow : evalSum (fun j => bytes (i + j)) n 256 < 2 ^ (8 * n) := by
        rw [pow_mul]
        exact evalSum_lt fun j _ => hbytes (i + j)
      rw [List.range_succ, List.foldl_append, ih, List.foldl_cons, List.foldl_nil,
        or_shiftLeft _ hlow, evalSum_succ, pow_mul]
      norm_num
  exact hfold 8

/-- Eight bytes of the number that all bytes stand for. -/
lemma load8_eq (i k : ℕ) :
    load8 bytes i = evalSum bytes (i + (8 + k)) 256 / 256 ^ i % 256 ^ 8 := by
  have hlow : evalSum bytes i 256 < 256 ^ i := evalSum_lt fun j _ => hbytes j
  have hmid : evalSum (fun j => bytes (i + j)) 8 256 < 256 ^ 8 :=
    evalSum_lt fun j _ => hbytes (i + j)
  rw [load8_eq_evalSum hbytes, evalSum_add bytes, Nat.add_mul_div_left _ _ (by positivity),
    Nat.div_eq_of_lt hlow, zero_add, evalSum_add, Nat.add_mul_mod_self_left,
    Nat.mod_eq_of_lt hmid]

/-- `from_bytes` drops the top bit. -/
lemma fromBytes_value :
    (fromBytes bytes).value = evalSum bytes 32 256 % 2 ^ 255 ∧ (fromBytes bytes).Below (2 ^ 51) := by
  have hload : ∀ i ≤ 24, load8 bytes i = evalSum bytes 32 256 / 256 ^ i % 256 ^ 8 := by
    intro i hi
    rw [load8_eq hbytes i (24 - i), show i + (8 + (24 - i)) = 32 by omega]
  have hlt : evalSum bytes 32 256 < 256 ^ 32 := evalSum_lt fun j _ => hbytes j
  generalize evalSum bytes 32 256 = v at hload hlt
  unfold fromBytes
  simp only [and_low51BitMask, Nat.shiftRight_eq_div_pow, hload 0 (by decide),
    hload 6 (by decide), hload 12 (by decide), hload 19 (by decide), hload 24 (by decide)]
  refine ⟨?_, below_mk (by omega) (by omega) (by omega) (by omega) (by omega)⟩
  rw [value]
  change v / 256 ^ 0 % 256 ^ 8 % 2 ^ 51 + 2 ^ 51 * (v / 256 ^ 6 % 256 ^ 8 / 2 ^ 3 % 2 ^ 51) +
    2 ^ 102 * (v / 256 ^ 12 % 256 ^ 8 / 2 ^ 6 % 2 ^ 51) +
    2 ^ 153 * (v / 256 ^ 19 % 256 ^ 8 / 2 ^ 1 % 2 ^ 51) +
    2 ^ 204 * (v / 256 ^ 24 % 256 ^ 8 / 2 ^ 12 % 2 ^ 51) = v % 2 ^ 255
  omega

end FromBytes

/-! ### Canonical encodings -/

/-- The bytes are those of the canonical number. -/
structure Encodes (bytes : List ℕ) (x : Ed25519Field) : Prop where
  length : bytes.length = 32
  lt : ∀ byte ∈ bytes, byte < 256
  value : evalSum (fun i => bytes.getD i 0) 32 256 = x.val

lemma getD_bytesOf (n : ℕ) {i : ℕ} (hi : i < 32) : (bytesOf n).getD i 0 = n / 256 ^ i % 256 := by
  rw [bytesOf, List.getD_eq_getElem _ _ (by simpa using hi), List.getElem_map, List.getElem_range]

lemma Encodes.getD_lt {bytes : List ℕ} {x : Ed25519Field} (h : Encodes bytes x) (i : ℕ) :
    bytes.getD i 0 < 256 := by
  rcases lt_or_ge i bytes.length with hi | hi
  · rw [List.getD_eq_getElem _ _ hi]
    exact h.lt _ (List.getElem_mem hi)
  · rw [List.getD_eq_default _ _ hi]
    norm_num

lemma encodes_bytesOf (x : Ed25519Field) : Encodes (bytesOf x.val) x where
  length := by rw [bytesOf, List.length_map, List.length_range]
  lt := by
    intro byte hbyte
    obtain ⟨i, -, rfl⟩ := List.mem_map.mp hbyte
    exact Nat.mod_lt _ (by norm_num)
  value := by
    have hx : x.val < 256 ^ 32 := (ZMod.val_lt x).trans (by decide)
    rw [evalSum_congr (fun i hi => getD_bytesOf x.val hi)]
    exact PrimeDigits.evalSum_digits hx

/-- The encoding is unique. -/
lemma Encodes.eq_bytesOf {bytes : List ℕ} {x : Ed25519Field} (h : Encodes bytes x) :
    bytes = bytesOf x.val := by
  have hlength : (bytesOf x.val).length = 32 := (encodes_bytesOf x).length
  apply List.ext_getElem (h.length.trans hlength.symm)
  intro i hi hi'
  have hlt : i < 32 := hi.trans_eq h.length
  calc bytes[i] = bytes.getD i 0 := (List.getD_eq_getElem _ _ hi).symm
    _ = evalSum (fun j => bytes.getD j 0) 32 256 / 256 ^ i % 256 :=
      (PrimeDigits.evalSum_div_mod (fun j _ => h.getD_lt j) hlt).symm
    _ = x.val / 256 ^ i % 256 := by rw [h.value]
    _ = (bytesOf x.val).getD i 0 := (getD_bytesOf x.val hlt).symm
    _ = (bytesOf x.val)[i] := List.getD_eq_getElem _ _ hi'

lemma asBytes_exact (ha : a.Below (2 ^ 64)) : Exact a.asBytes (· = bytesOf a.toField.val) := by
  refine .bind (reduce_exact ha) ?_
  rintro reduced ⟨hreduced, hbelow⟩
  refine .bind (canonicalLimbs_exact hbelow) ?_
  rintro limbs ⟨hlimbs, hlow⟩
  rw [← hreduced, toField, ZMod.val_natCast, ← hlimbs]
  exact limbBytes_exact hlow

/-- Reading an encoding back. -/
lemma toField_fromBytes {bytes : List ℕ} {x : Ed25519Field} (h : Encodes bytes x) :
    (fromBytes fun i => bytes.getD i 0).toField = x := by
  have hlt : x.val < 2 ^ 255 := (ZMod.val_lt x).trans (by decide)
  rw [toField, (fromBytes_value h.getD_lt).1, h.value, Nat.mod_eq_of_lt hlt,
    ZMod.natCast_zmod_val]

/-! ### The operations -/

/-- The operations on limbs below `2 ^ 54`, where `pow2k` squares at least once. -/
theorem operations_exact (b : FieldElement51) (ha : a.Below (2 ^ 54)) (hb : b.Below (2 ^ 54)) :
    Exact (a.add b) (fun r => r.toField = a.toField + b.toField) ∧
    Exact (a.sub b) (fun r => r.toField = a.toField - b.toField ∧ r.Below (2 ^ 52)) ∧
    Exact a.neg (fun r => r.toField = -a.toField ∧ r.Below (2 ^ 52)) ∧
    Exact (a.mul b) (fun r => r.toField = a.toField * b.toField ∧ r.Below (2 ^ 52)) ∧
    Exact a.square (fun r => r.toField = a.toField ^ 2 ∧ r.Below (2 ^ 52)) ∧
    (∀ k, 0 < k → k < 2 ^ 32 →
      Exact (a.pow2k k) fun r => r.toField = a.toField ^ 2 ^ k ∧ r.Below (2 ^ 52)) ∧
    Exact a.reduce (fun r => r.toField = a.toField ∧ r.Below (2 ^ 52)) ∧
    Exact a.asBytes (fun bytes => Encodes bytes a.toField ∧
      (∀ bytes', Encodes bytes' a.toField → bytes' = bytes) ∧
      (fromBytes fun i => bytes.getD i 0).toField = a.toField) := by
  have hword : a.Below (2 ^ 64) := ha.mono (by norm_num)
  have hbelow : ∀ {x : Ed25519Field} (r : FieldElement51),
      r.toField = x ∧ r.Below (2 ^ 51 + 2 ^ 18) → r.toField = x ∧ r.Below (2 ^ 52) :=
    fun r hr => ⟨hr.1, hr.2.mono (by norm_num)⟩
  refine ⟨?_, (sub_exact ha hb).mono hbelow, (neg_exact ha).mono hbelow,
    (mul_exact ha hb).mono hbelow, (square_exact ha).mono hbelow, ?_,
    (reduce_exact hword).mono hbelow, ?_⟩
  · refine (add_exact ha hb (by norm_num)).mono ?_
    rintro r rfl
    exact toField_add_limbs a b
  · intro k hk hlt
    have hpow := pow2k_exact k ha
    rw [pow2kRounds_eq hk hlt] at hpow
    exact hpow.mono hbelow
  · refine (asBytes_exact hword).mono ?_
    rintro bytes rfl
    exact ⟨encodes_bytesOf _, fun _ h => h.eq_bytesOf, toField_fromBytes (encodes_bytesOf _)⟩

theorem operations_exact_edwardsD :
    Exact (edwardsD.add sqrtM1) (fun r => r.toField = edwardsD.toField + sqrtM1.toField) := by
  have ha : edwardsD.Below (2 ^ 54) := by constructor <;> decide
  have hb : sqrtM1.Below (2 ^ 54) := by constructor <;> decide
  exact (operations_exact sqrtM1 ha hb).1

/-- The limbs of `-1`. -/
def minusOne : FieldElement51 :=
  ⟨2 ^ 51 - 20, 2 ^ 51 - 1, 2 ^ 51 - 1, 2 ^ 51 - 1, 2 ^ 51 - 1⟩

lemma toField_minusOne : minusOne.toField = -1 := by
  rw [toField, show minusOne.value = ed25519Order - 1 by decide,
    Nat.cast_sub (by decide), ZMod.natCast_self, zero_sub, Nat.cast_one]

/-- The rounds of `pow2k` for zero square `-1` away. -/
theorem not_pow2k_zero :
    ¬ ∀ (a : FieldElement51) (k : ℕ), a.Below (2 ^ 54) → k < 2 ^ 32 →
      Exact (a.pow2k k) fun r => r.toField = a.toField ^ 2 ^ k ∧ r.Below (2 ^ 52) := by
  intro h
  have hbelow : minusOne.Below (2 ^ 54) := by constructor <;> decide
  obtain ⟨r, -, ⟨hr, -⟩, hr', -⟩ :=
    (pow2k_exact 0 hbelow).and (h minusOne 0 hbelow (by norm_num))
  have heven : Even (2 ^ pow2kRounds 0) := (even_two).pow_of_ne_zero (Nat.succ_ne_zero _)
  rw [toField_minusOne, pow_zero, pow_one] at hr'
  rw [toField_minusOne, heven.neg_one_pow, hr'] at hr
  exact absurd (congrArg ZMod.val hr) (by decide)

end MegaZK.FieldElement51
