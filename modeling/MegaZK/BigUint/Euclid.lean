import MegaZK.BigUint.Inverse
import MegaZK.BigUint.Quotients

/-! # Modular inverses over the digits

`inverse_eea` with the digit-level operations. For coprime numbers the remainders come down to one,
and the division by it reads below the digits. -/

namespace MegaZK

namespace BigUint

/-- `Bigint`. -/
structure Bigint where
  value : BigUint
  sign : Sign

namespace Bigint

def zero : Bigint := ⟨BigUint.zero, .noSign⟩

def one : Bigint := ⟨BigUint.one, .plus⟩

def isZero (x : Bigint) : Bool := x.value.isZero || x.sign == .noSign

/-- `operator-`. -/
def sub (x y : Bigint) : Option Bigint :=
  if y.isZero then some x
  else if x.isZero then some ⟨y.value, y.sign.flip⟩
  else if x.sign ≠ y.sign then do return ⟨← x.value.add y.value, x.sign⟩
  else if x.value.eq y.value then some zero
  else if x.value.gt y.value then do return ⟨← x.value.sub y.value, x.sign⟩
  else do return ⟨← y.value.sub x.value, x.sign.flip⟩

/-- `operator*`. -/
def mul (x : Bigint) (other : BigUint) : Option Bigint :=
  if x.isZero || other.isZero then some zero
  else do return ⟨← x.value.mul other, x.sign⟩

/-- `operator%`. -/
def mod (x : Bigint) (divisor : BigUint) : Option BigUint :=
  if divisor.isZero then some BigUint.zero
  else do
    let remainder ← x.value.mod divisor
    if remainder.isZero then return BigUint.zero
    if x.sign = .minus then divisor.sub remainder else return remainder

end Bigint

/-- The loop of `inverse_eea`. -/
def inverseEeaLoop : ℕ → BigUint → BigUint → Bigint → Bigint → Option (BigUint × Bigint)
  | 0, _, _, _, _ => none
  | fuel + 1, oldR, r, oldS, s =>
    if r.isZero then some (oldR, oldS)
    else do
      let quotient ← oldR.div r
      let next ← oldR.sub (← quotient.mul r)
      let nextS ← oldS.sub (← s.mul quotient)
      inverseEeaLoop fuel r next s nextS

/-- `inverse_eea`. -/
def inverseEea (fuel : ℕ) (a m : BigUint) : Option BigUint :=
  if a.isZero then some zero
  else do
    let (oldR, oldS) ← inverseEeaLoop fuel a m .one .zero
    if !oldR.isOne then return zero
    oldS.mod m

/-! ### The loop -/

variable {oldR r : BigUint}

/-- The remainders of a state of the loop: coprime, not zero, and of at most eight digits. -/
structure Coprimes (oldR r : BigUint) : Prop where
  trimmed_old : oldR.Trimmed
  trimmed : r.Trimmed
  pos_old : 0 < oldR.value
  pos : 0 < r.value
  coprime : oldR.value.Coprime r.value
  lt_old : oldR.value < (2 ^ 32) ^ 8
  lt : r.value < (2 ^ 32) ^ 8

lemma Trimmed.one_le_length (hx : oldR.Trimmed) (hpos : 0 < oldR.value) : 1 ≤ oldR.length := by
  by_contra hlength
  exact hpos.ne' (hx.value_eq_zero.mpr (by omega))

/-- The lengths of two numbers of which the product is not too large. -/
lemma Trimmed.length_add_le {x y : BigUint} (hx : x.Trimmed) (hy : y.Trimmed) (hxp : 0 < x.value)
    (hyp : 0 < y.value) {n : ℕ} (hlt : x.value * y.value < (2 ^ 32) ^ n) :
    x.length + y.length ≤ n + 1 := by
  obtain ⟨k, hk⟩ := Nat.exists_eq_add_of_le (hx.one_le_length hxp)
  obtain ⟨l, hl⟩ := Nat.exists_eq_add_of_le (hy.one_le_length hyp)
  have hmul := Nat.mul_le_mul (hx.le_value (n := k) (by omega)) (hy.le_value (n := l) (by omega))
  rw [← pow_add] at hmul
  have hpow := (Nat.pow_lt_pow_iff_right (by norm_num : 1 < 2 ^ 32)).mp (hmul.trans_lt hlt)
  omega

/-- One pass of the loop divides nothing, or keeps the remainders coprime and not zero. -/
lemma Coprimes.step (h : Coprimes oldR r) :
    oldR.div r = none ∨ ∃ quotient product next, oldR.div r = some quotient ∧
      quotient.mul r = some product ∧ oldR.sub product = some next ∧ Coprimes r next := by
  have hrl := h.trimmed.one_le_length h.pos
  have holdl := h.trimmed_old.length_le h.lt_old
  have hlen : oldR.length < maxDigits := by
    rw [maxDigits]
    omega
  cases hlt : oldR.lt r with
  | true =>
    -- the remainders change places
    refine .inr ⟨zero, zero, oldR, ?_, ?_, ?_, ?_⟩
    · rw [BigUint.div, h.trimmed.not_isZero hrl, if_neg Bool.false_ne_true, if_pos hlt]
    · exact if_pos rfl
    · exact if_pos rfl
    · exact ⟨h.trimmed, h.trimmed_old, h.pos, h.pos_old, h.coprime.symm, h.lt, h.lt_old⟩
  | false =>
    rcases hrl.eq_or_lt with hone | htwo
    · exact .inl (div_of_length_one h.trimmed_old.clean h.trimmed hlen hone.symm hlt).1
    · right
      obtain ⟨q, t, hq⟩ := exists_loopResult h.trimmed_old.clean h.trimmed hlen htwo hlt
      have hle : q.value * r.value ≤ oldR.value :=
        (Nat.le_div_iff_mul_le h.pos).mp (hq.quotient_le h.pos)
      have hfit : q.isZero = true ∨ r.isZero = true ∨ q.isOne = true ∨ r.isOne = true ∨
          q.length + r.length < maxDigits := by
        by_cases hzero : q.value = 0
        · refine .inl (isZero_iff.mpr (.inr ?_))
          exact hq.trimmed_quotient.value_eq_zero.mp hzero
        · have := hq.trimmed_quotient.length_add_le h.trimmed (Nat.pos_of_ne_zero hzero) h.pos
            (hle.trans_lt h.lt_old)
          refine .inr (.inr (.inr (.inr ?_)))
          rw [maxDigits]
          omega
      obtain ⟨product, hproduct, hpv, hform⟩ := mul_spec h.trimmed.clean hfit
      have hclean : product.Clean := by
        rcases hform with ⟨-, rfl⟩ | ⟨-, rfl | rfl | htrim⟩
        · exact canonical_zero.clean
        · exact hq.trimmed_quotient.clean
        · exact h.trimmed.clean
        · exact htrim.clean
      obtain ⟨next, hnext, hnv, hnform⟩ := sub_spec (x := oldR) hclean (hpv.trans_le hle)
      have htrimmed : next.Trimmed := by
        rcases hnform with ⟨-, rfl⟩ | ⟨-, htrim⟩
        · exact h.trimmed_old
        · exact htrim
      rw [hpv] at hnv
      refine ⟨q, product, next, hq.div, hproduct, hnext, h.trimmed, htrimmed, h.pos, ?_, ?_, h.lt,
        ?_⟩
      · -- a remainder of zero would make the divisor one
        by_contra hzero
        have heq : oldR.value = q.value * r.value := by omega
        have hone : r.value = 1 :=
          (Nat.gcd_eq_right (Dvd.intro_left _ heq.symm)).symm.trans h.coprime
        have := h.trimmed.length_le (n := 1) (by omega)
        omega
      · rw [hnv, Nat.Coprime, Nat.gcd_sub_mul_right_right hle]
        exact h.coprime.symm
      · have := h.lt_old
        omega

/-- The loop returns nothing for coprime numbers. -/
lemma Coprimes.inverseEeaLoop_eq_none (h : Coprimes oldR r) (fuel : ℕ) (oldS s : Bigint) :
    inverseEeaLoop fuel oldR r oldS s = none := by
  induction fuel generalizing oldR r oldS s with
  | zero => rfl
  | succ fuel ih =>
    rw [inverseEeaLoop, h.trimmed.not_isZero (h.trimmed.one_le_length h.pos),
      if_neg Bool.false_ne_true]
    rcases h.step with hnone | ⟨quotient, product, next, hdiv, hmul, hsub, hnext⟩
    · rw [hnone]
      rfl
    · simp only [hdiv, hmul, hsub, Option.bind_eq_bind, Option.bind_some]
      cases s.mul quotient with
      | none => rfl
      | some p =>
        rw [Option.bind_some]
        cases oldS.sub p with
        | none => rfl
        | some nextS => exact ih hnext s nextS

/-- `inverse_eea` returns nothing for coprime numbers. -/
lemma Coprimes.inverseEea_eq_none (h : Coprimes oldR r) (fuel : ℕ) :
    inverseEea fuel oldR r = none := by
  rw [inverseEea, h.trimmed_old.not_isZero (h.trimmed_old.one_le_length h.pos_old),
    if_neg Bool.false_ne_true, h.inverseEeaLoop_eq_none]
  rfl

end BigUint

end MegaZK
