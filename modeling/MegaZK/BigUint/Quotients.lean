import MegaZK.BigUint.DivRem
import MegaZK.BigUint.Run
import MegaZK.BigUint.Targets

/-! # Quotients in canonical form

What the three division functions return for a trimmed divisor, and the trimmed number of a natural
number. -/

namespace MegaZK

open Horner Radix LongDivision

namespace BigUint

variable {x y : BigUint} {u quotient : DigitArray} {n : ℕ}

/-! ### The number of a value -/

/-- The digits of a number. -/
def natDigits (value : ℕ) : DigitArray where
  digit i := value / (2 ^ 32) ^ i % 2 ^ 32
  digit_lt _ := Nat.mod_lt _ (by norm_num)

/-- The trimmed number of a value. -/
def ofNat (value : ℕ) : BigUint where
  toDigitArray := natDigits value
  length := (natDigits value).trimLength maxDigits
  length_le := trimLength_le _ _

section OfNat

variable {value : ℕ} (hvalue : value < (2 ^ 32) ^ maxDigits)
include hvalue

lemma value_ofNat : (ofNat value).value = value := by
  rw [BigUint.value, ofNat, DigitArray.evalSum_trimLength]
  exact PrimeDigits.evalSum_digits hvalue

lemma trimmed_ofNat : (ofNat value).Trimmed := by
  have habove : ∀ i, maxDigits ≤ i → (natDigits value).digit i = 0 := by
    intro i hi
    have hlt := hvalue.trans_le (Nat.pow_le_pow_right (by norm_num : 0 < 2 ^ 32) hi)
    change value / (2 ^ 32) ^ i % 2 ^ 32 = 0
    rw [Nat.div_eq_of_lt hlt, Nat.zero_mod]
  obtain ⟨r, hr, -, htrim⟩ := trim_spec le_rfl habove
  rw [trim, dif_pos le_rfl] at hr
  obtain rfl := Option.some.inj hr
  exact htrim

end OfNat

lemma value_lt_maxDigits (x : BigUint) : x.value < (2 ^ 32) ^ maxDigits :=
  x.value_lt.trans_le (Nat.pow_le_pow_right (by norm_num) x.length_le)

/-- Trimmed numbers of one value are equal. -/
lemma Trimmed.eq_of_value (hx : x.Trimmed) (hy : y.Trimmed) (hvalue : x.value = y.value) :
    x = y := by
  have hdigit : x.digit = y.digit := by
    funext i
    rw [hx.clean.digit_eq, hy.clean.digit_eq, hvalue]
  have hle : ∀ {a b : BigUint}, a.Trimmed → b.Trimmed → a.value = b.value →
      a.length ≤ b.length := by
    intro a b ha hb hab
    exact ha.length_le (hab ▸ b.value_lt)
  have hlength := (hle hx hy hvalue).antisymm (hle hy hx hvalue.symm)
  obtain ⟨⟨dx, _⟩, lx, _⟩ := x
  obtain ⟨⟨dy, _⟩, ly, _⟩ := y
  obtain rfl : dx = dy := hdigit
  obtain rfl : lx = ly := hlength
  rfl

lemma Trimmed.eq_ofNat (hx : x.Trimmed) : x = ofNat x.value :=
  hx.eq_of_value (trimmed_ofNat x.value_lt_maxDigits) (value_ofNat x.value_lt_maxDigits).symm

/-! ### Division by a trimmed divisor -/

/-- The remainder digits before they are shifted back. -/
lemma exists_trimmed_remainder (u : DigitArray) (hn : n ≤ maxDigits) :
    ∃ t, trim (copyDigits u n .init) n = some t ∧ t.value = window u 0 n ∧ t.Trimmed := by
  have habove : ∀ m i, m ≤ i → (copyDigits u m .init).digit i = 0 := by
    intro m
    induction m with
    | zero => exact fun _ _ => rfl
    | succ m ih =>
      intro i hi
      rw [copyDigits, DigitArray.digit_update_of_ne _ (by omega), ih i (by omega)]
  obtain ⟨t, ht, hvalue, htrim⟩ := trim_spec hn (habove n)
  refine ⟨t, ht, ?_, htrim⟩
  rw [hvalue]
  apply evalSum_congr
  intro i hi
  rw [digit_copyDigits u .init hi, zero_add]

/-- The quotient and the shifted remainder of the division loop. -/
structure LoopResult (x y q t : BigUint) : Prop where
  div : x.div y = some q
  mod : x.mod y = some (t.shr y.normShift)
  divRem : x.divRem y .init .init = some (q, t.shr y.normShift)
  trimmed_quotient : q.Trimmed
  trimmed_remainder : t.Trimmed
  lt : t.value < y.value * 2 ^ y.normShift
  sum_le : q.value * (y.value * 2 ^ y.normShift) + t.value ≤ x.value * 2 ^ y.normShift
  sum_eq_iff : q.value * (y.value * 2 ^ y.normShift) + t.value = x.value * 2 ^ y.normShift ↔
    Lossless (y.length - 2) (x.length - y.length + 1) (y.value * 2 ^ y.normShift)
      (x.value * 2 ^ y.normShift)

lemma Trimmed.top (hy : y.Trimmed) (hpos : 1 ≤ y.length) : y.digit (y.length - 1) ≠ 0 :=
  hy.top_ne_zero _ (by omega)

lemma Trimmed.not_isZero (hy : y.Trimmed) (hpos : 1 ≤ y.length) : y.isZero = false := by
  by_contra hne
  have hzero := value_of_isZero (Bool.eq_true_of_not_eq_false hne)
  have := hy.value_eq_zero.mp hzero
  omega

lemma length_le_of_not_lt (hlt : x.lt y = false) : y.length ≤ x.length := by
  by_contra hgt
  rw [lt, if_pos (by omega), decide_eq_true (by omega)] at hlt
  cases hlt

lemma exists_loopResult (hx : x.Clean) (hy : y.Trimmed) (hlen : x.length < maxDigits)
    (hyl : 2 ≤ y.length) (hlt : x.lt y = false) : ∃ q t, LoopResult x y q t := by
  have hzero := hy.not_isZero (by omega)
  have hle := length_le_of_not_lt hlt
  obtain ⟨u', quotient', hrun, hkeep, hR, hsum, hexact⟩ :=
    divDigits_spec hx hy.clean hlen hyl hle (hy.top (by omega)) .init
  obtain ⟨q, hq, hqv, hqt⟩ := trim_spec (d := quotient') (n := x.length - y.length + 1) (by omega)
    fun i hi => by rw [hkeep i hi, DigitArray.digit_init]
  obtain ⟨t, ht, htv, htt⟩ := exists_trimmed_remainder u' y.length_le
  rw [← hqv, ← htv] at hsum hexact
  rw [← htv] at hR
  refine ⟨q, t, ?_, ?_, ?_, hqt, htt, hR, hsum, hexact⟩
  · simp only [BigUint.div, hzero, hlt, hrun, hq, Bool.false_eq_true, if_false,
      Option.bind_eq_bind, Option.bind_some]
  · simp only [BigUint.mod, hzero, hlt, hrun, ht, Bool.false_eq_true, if_false,
      Option.bind_eq_bind, Option.bind_some, Option.pure_def]
  · simp only [BigUint.divRem, hzero, hlt, hrun, hq, ht, Bool.false_eq_true, if_false,
      Option.bind_eq_bind, Option.bind_some, Option.pure_def]

lemma Trimmed.value_pos (hy : y.Trimmed) (hpos : 1 ≤ y.length) : 0 < y.value := by
  apply Nat.pos_of_ne_zero
  intro hzero
  have := hy.value_eq_zero.mp hzero
  omega

lemma LoopResult.quotient_le {q t : BigUint} (h : LoopResult x y q t) (hy : 0 < y.value) :
    q.value ≤ x.value / y.value := by
  have hmul : q.value * y.value * 2 ^ y.normShift ≤ x.value * 2 ^ y.normShift := by
    rw [mul_assoc]
    exact (Nat.le_add_right _ _).trans h.sum_le
  rw [Nat.le_div_iff_mul_le hy]
  exact Nat.le_of_mul_le_mul_right hmul (by positivity)

/-- A right quotient leaves at most the remainder. -/
lemma LoopResult.remainder_le {q t : BigUint} (h : LoopResult x y q t)
    (hq : q.value = x.value / y.value) : (t.shr y.normShift).value ≤ x.value % y.value := by
  have hsum := h.sum_le
  have hsplit : x.value * 2 ^ y.normShift = x.value / y.value * (y.value * 2 ^ y.normShift) +
      x.value % y.value * 2 ^ y.normShift := by
    conv_lhs => rw [← Nat.div_add_mod' x.value y.value]
    ring
  rw [hq, hsplit] at hsum
  rw [value_shr]
  exact Nat.div_le_of_le_mul ((Nat.add_le_add_iff_left.mp hsum).trans_eq (mul_comm _ _))

/-- What `div_rem` returns for a trimmed divisor: a quotient and a remainder that are not too large,
and right exactly where the division is exact. -/
structure DivRemResult (x y q r : BigUint) : Prop where
  divRem : x.divRem y .init .init = some (q, r)
  clean_quotient : q.Clean
  clean_remainder : r.Clean
  quotient_le : q.value ≤ x.value / y.value
  remainder_le : q.value = x.value / y.value → r.value ≤ x.value % y.value
  eq_iff : q.value = x.value / y.value ∧ r.value = x.value % y.value ↔ DivisionExact x y

lemma exists_divRemResult (hx : x.Clean) (hy : y.Trimmed) (hlen : x.length < maxDigits)
    (hyl : 1 ≤ y.length) (hcmp : x.lt y = true ↔ x.value < y.value)
    (hdigits : x.lt y = true ∨ 2 ≤ y.length) : ∃ q r, DivRemResult x y q r := by
  have hzero := hy.not_isZero hyl
  cases hlt : x.lt y with
  | true =>
    have hvalue := hcmp.mp hlt
    have hdiv : x.value / y.value = 0 := Nat.div_eq_of_lt hvalue
    have hmod : x.value % y.value = x.value := Nat.mod_eq_of_lt hvalue
    refine ⟨zero, x, ?_, canonical_zero.clean, hx, ?_, ?_, ?_⟩
    · rw [BigUint.divRem, hzero, if_neg Bool.false_ne_true, if_pos hlt]
    · rw [value_zero]
      exact Nat.zero_le _
    · exact fun _ => hmod.ge
    · rw [DivisionExact, if_pos hlt, hdiv, hmod]
      exact iff_of_true ⟨value_zero, rfl⟩ hvalue
  | false =>
    have hyl2 : 2 ≤ y.length := hdigits.resolve_left (by simp [hlt])
    obtain ⟨q, t, h⟩ := exists_loopResult hx hy hlen hyl2 hlt
    refine ⟨q, t.shr y.normShift, h.divRem, h.trimmed_quotient.clean,
      h.trimmed_remainder.clean.shr _, h.quotient_le (hy.value_pos hyl), h.remainder_le, ?_⟩
    rw [DivisionExact, if_neg (by simp [hlt]), value_shr, eq_div_and_div_pow_iff h.lt h.sum_le,
      h.sum_eq_iff]
    exact ⟨fun hlossless => ⟨hyl2, hy.top hyl, hlossless⟩, fun hexact => hexact.2.2⟩

/-- A divisor of one digit gives nothing for a dividend that is not smaller. -/
lemma div_of_length_one (hx : x.Clean) (hy : y.Trimmed) (hlen : x.length < maxDigits)
    (hyl : y.length = 1) (hlt : x.lt y = false) :
    x.div y = none ∧ x.divRem y .init .init = none := by
  have hzero := hy.not_isZero hyl.ge
  have htop := hy.top hyl.ge
  rw [hyl] at htop
  have hnone := divDigits_of_length_one hx hy.clean hlen hyl (hyl ▸ length_le_of_not_lt hlt) htop
    .init
  constructor
  · simp only [BigUint.div, hzero, hlt, hnone, Bool.false_eq_true, if_false, Option.bind_eq_bind,
      Option.bind_none]
  · simp only [BigUint.divRem, hzero, hlt, hnone, Bool.false_eq_true, if_false,
      Option.bind_eq_bind, Option.bind_none]

end BigUint

end MegaZK
