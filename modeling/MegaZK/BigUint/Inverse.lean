import MegaZK.BigUint.Basic
import MegaZK.BigUint.Orders
import Mathlib.Data.Int.ModEq
import Mathlib.Tactic.Linarith

/-! # Modular inverses

`inverse_eea`, the extended Euclidean algorithm over signed big numbers, with exact operations on
the magnitudes. A magnitude that `MAX_DIGITS` digits do not hold is `none`. -/

namespace MegaZK

/-- `Sign`. -/
inductive Sign
  | minus
  | noSign
  | plus
  deriving DecidableEq

namespace Sign

/-- `sign == Sign::Plus ? Sign::Minus : Sign::Plus`. -/
def flip (s : Sign) : Sign := if s = plus then minus else plus

end Sign

/-- `Bigint`, with its magnitude as a number. -/
structure Bigint where
  value : ℕ
  sign : Sign

namespace Bigint

def zero : Bigint := ⟨0, .noSign⟩

def one : Bigint := ⟨1, .plus⟩

/-- A number whose magnitude has at most `MAX_DIGITS` digits. -/
def ofValue (value : ℕ) (sign : Sign) : Option Bigint :=
  if value < (2 ^ 32) ^ maxDigits then some ⟨value, sign⟩ else none

def isZero (x : Bigint) : Bool := x.value == 0 || x.sign == .noSign

/-- `operator-`. -/
def sub (x y : Bigint) : Option Bigint :=
  if y.isZero then some x
  else if x.isZero then ofValue y.value y.sign.flip
  else if x.sign ≠ y.sign then ofValue (x.value + y.value) x.sign
  else if x.value = y.value then some zero
  else if y.value < x.value then ofValue (x.value - y.value) x.sign
  else ofValue (y.value - x.value) x.sign.flip

/-- `operator*` with a magnitude. -/
def mul (x : Bigint) (other : ℕ) : Option Bigint :=
  if x.isZero || other == 0 then some zero else ofValue (x.value * other) x.sign

/-- `operator%`. -/
def mod (x : Bigint) (divisor : ℕ) : ℕ :=
  if divisor = 0 then 0
  else
    let remainder := x.value % divisor
    if remainder = 0 then 0
    else if x.sign = .minus then divisor - remainder else remainder

/-- The integer that it stands for. -/
def toInt (x : Bigint) : ℤ :=
  match x.sign with
  | .minus => -x.value
  | .noSign => 0
  | .plus => x.value

/-- Only zero has no sign. -/
def Signed (x : Bigint) : Prop := x.value = 0 ↔ x.sign = .noSign

/-- Not of the same sign, as two coefficients in a row are. -/
def Opposite (x y : Bigint) : Prop := x.sign = .noSign ∨ y.sign = .noSign ∨ x.sign ≠ y.sign

variable {x y : Bigint} {q : ℕ}

lemma Opposite.symm (h : x.Opposite y) : y.Opposite x := by
  rcases h with h | h | h
  · exact .inr (.inl h)
  · exact .inl h
  · exact .inr (.inr h.symm)

lemma Signed.isZero_iff (hx : x.Signed) : x.isZero = true ↔ x.value = 0 := by
  have hsign : x.sign = .noSign ↔ x.value = 0 := hx.symm
  rw [isZero, Bool.or_eq_true, beq_iff_eq, beq_iff_eq, hsign, or_self]

lemma Signed.toInt_eq_zero (hx : x.Signed) (hzero : x.value = 0) : x.toInt = 0 := by
  rw [toInt, hx.mp hzero]

lemma ofValue_eq_some {value : ℕ} (s : Sign) (hfit : value < (2 ^ 32) ^ maxDigits) :
    ofValue value s = some ⟨value, s⟩ := if_pos hfit

/-- A product by a magnitude keeps the sign. -/
lemma mul_spec (hx : x.Signed) (hfit : x.value * q < (2 ^ 32) ^ maxDigits) :
    ∃ p, x.mul q = some p ∧ p.value = x.value * q ∧ p.toInt = x.toInt * q ∧ p.Signed ∧
      (p.sign = .noSign ∨ p.sign = x.sign) := by
  by_cases hzero : x.value = 0 ∨ q = 0
  · refine ⟨zero, ?_, ?_, ?_, iff_of_true rfl rfl, .inl rfl⟩
    · rw [mul, if_pos]
      rwa [Bool.or_eq_true, hx.isZero_iff, beq_iff_eq]
    · exact (Nat.mul_eq_zero.mpr hzero).symm
    · rcases hzero with h | rfl
      · rw [hx.toInt_eq_zero h, zero_mul]
        rfl
      · rw [Nat.cast_zero, mul_zero]
        rfl
  · refine ⟨⟨x.value * q, x.sign⟩, ?_, rfl, ?_, ?_, .inr rfl⟩
    · rw [mul, if_neg, ofValue_eq_some _ hfit]
      rwa [Bool.or_eq_true, hx.isZero_iff, beq_iff_eq]
    · cases hsign : x.sign <;> simp [toInt, hsign]
    · rw [not_or] at hzero
      exact iff_of_false (Nat.mul_ne_zero hzero.1 hzero.2) (mt hx.mpr hzero.1)

/-- A difference of opposite numbers adds their magnitudes. -/
lemma sub_spec (hx : x.Signed) (hy : y.Signed) (hopp : x.Opposite y)
    (hfit : x.value + y.value < (2 ^ 32) ^ maxDigits) :
    ∃ d, x.sub y = some d ∧ d.value = x.value + y.value ∧ d.toInt = x.toInt - y.toInt ∧
      d.Signed ∧ (y.sign = .noSign → d = x) ∧ (y.sign ≠ .noSign → y.sign ≠ d.sign) := by
  by_cases hy0 : y.value = 0
  · refine ⟨x, by rw [sub, if_pos (hy.isZero_iff.mpr hy0)], by omega, ?_, hx, fun _ => rfl,
      fun hne => absurd (hy.mp hy0) hne⟩
    rw [hy.toInt_eq_zero hy0, sub_zero]
  have hysign : y.sign ≠ .noSign := mt hy.mpr hy0
  by_cases hx0 : x.value = 0
  · refine ⟨⟨y.value, y.sign.flip⟩, ?_, by simp [hx0], ?_, ?_, (absurd · hysign), fun _ => ?_⟩
    · rw [sub, if_neg (mt hy.isZero_iff.mp hy0), if_pos (hx.isZero_iff.mpr hx0),
        ofValue_eq_some _ (by omega)]
    · rw [hx.toInt_eq_zero hx0]
      cases hs : y.sign <;> simp_all [toInt, Sign.flip]
    · refine iff_of_false hy0 ?_
      cases hs : y.sign <;> simp [Sign.flip]
    · cases hs : y.sign <;> simp_all [Sign.flip]
  have hxsign : x.sign ≠ .noSign := mt hx.mpr hx0
  have hne : x.sign ≠ y.sign := (hopp.resolve_left hxsign).resolve_left hysign
  refine ⟨⟨x.value + y.value, x.sign⟩, ?_, rfl, ?_, iff_of_false (by simp; omega) hxsign,
    (absurd · hysign), fun _ => hne.symm⟩
  · rw [sub, if_neg (mt hy.isZero_iff.mp hy0), if_neg (mt hx.isZero_iff.mp hx0), if_pos hne,
      ofValue_eq_some _ hfit]
  · cases hs : x.sign <;> cases hs' : y.sign <;> simp_all [toInt]
    ring

/-- The remainder is the residue of the integer. -/
lemma mod_spec (hx : x.Signed) {m : ℕ} (hm : 0 < m) :
    x.mod m < m ∧ (x.mod m : ℤ) ≡ x.toInt [ZMOD m] := by
  have hlt := Nat.mod_lt x.value hm
  have hvalue : ((x.value % m : ℕ) : ℤ) ≡ x.value [ZMOD m] := by
    rw [Int.natCast_mod]
    exact Int.mod_modEq _ _
  rw [mod, if_neg hm.ne']
  dsimp only
  split_ifs with hzero hminus
  · refine ⟨hm, ?_⟩
    rw [hzero] at hvalue
    cases hs : x.sign
    · simpa [toInt, hs] using hvalue.neg
    · simp [toInt, hs]
    · simpa [toInt, hs] using hvalue
  · refine ⟨by omega, ?_⟩
    rw [toInt, hminus, Nat.cast_sub hlt.le]
    simpa using (Int.modEq_zero_iff_dvd.mpr (dvd_refl (m : ℤ))).sub hvalue
  · refine ⟨hlt, ?_⟩
    cases hs : x.sign
    · exact absurd hs hminus
    · rw [hx.mpr hs, Nat.zero_mod] at hzero
      exact absurd rfl hzero
    · simpa [toInt, hs] using hvalue

end Bigint

/-! ### The algorithm -/

/-- The loop of `inverse_eea`, with the remainders and the coefficients of its state. -/
def eeaLoop : ℕ → ℕ → ℕ → Bigint → Bigint → Option (ℕ × Bigint)
  | 0, _, _, _, _ => none
  | fuel + 1, oldR, r, oldS, s =>
    if r = 0 then some (oldR, oldS)
    else do
      let quotient := oldR / r
      let product ← s.mul quotient
      let next ← oldS.sub product
      eeaLoop fuel r (oldR - quotient * r) s next

/-- `inverse_eea`. -/
def inverseEea (fuel a m : ℕ) : Option ℕ :=
  if a = 0 then some 0
  else do
    let (oldR, oldS) ← eeaLoop fuel a m .one .zero
    if oldR ≠ 1 then return 0 else return oldS.mod m

open Bigint

/-- What the loop keeps: every remainder is its coefficient times `a`, and the coefficients, which
alternate in sign, never pass `m`. -/
structure EeaInvariant (a m oldR r : ℕ) (oldS s : Bigint) : Prop where
  signed_old : oldS.Signed
  signed : s.Signed
  opposite : oldS.Opposite s
  pos : 0 < oldR
  gcd_eq : oldR.gcd r = a.gcd m
  modEq_old : oldS.toInt * a ≡ oldR [ZMOD m]
  modEq : s.toInt * a ≡ r [ZMOD m]
  cofactors : s.value * oldR + oldS.value * r = m

variable {a m oldR r : ℕ} {oldS s : Bigint}

lemma eeaInvariant_init (ha : 0 < a) : EeaInvariant a m a m .one .zero where
  signed_old := iff_of_false one_ne_zero (by decide)
  signed := iff_of_true rfl rfl
  opposite := .inr (.inl rfl)
  pos := ha
  gcd_eq := rfl
  modEq_old := by rw [show Bigint.one.toInt = 1 from rfl, one_mul]
  modEq := by
    rw [show Bigint.zero.toInt = 0 from rfl, zero_mul]
    exact (Int.modEq_zero_iff_dvd.mpr dvd_rfl).symm
  cofactors := by simp [Bigint.one, Bigint.zero]

/-- One pass of the loop succeeds and keeps the invariant. -/
lemma EeaInvariant.step (h : EeaInvariant a m oldR r oldS s) (hr : r ≠ 0)
    (hm : m < (2 ^ 32) ^ maxDigits) :
    ∃ product next, s.mul (oldR / r) = some product ∧ oldS.sub product = some next ∧
      EeaInvariant a m r (oldR - oldR / r * r) s next := by
  have hdiv := Nat.div_add_mod' oldR r
  -- the next coefficient times the next old remainder is part of `m`
  have hcofactors : (oldS.value + s.value * (oldR / r)) * r +
      s.value * (oldR - oldR / r * r) = m := by
    rw [← h.cofactors]
    conv_rhs => rw [← hdiv]
    rw [Nat.sub_eq_of_eq_add' hdiv.symm]
    ring
  have hle : oldS.value + s.value * (oldR / r) ≤ m := by
    calc oldS.value + s.value * (oldR / r)
        ≤ (oldS.value + s.value * (oldR / r)) * r :=
          Nat.le_mul_of_pos_right _ (Nat.pos_of_ne_zero hr)
      _ ≤ m := by omega
  obtain ⟨product, hproduct, hvalue, hint, hsigned, hsign⟩ :=
    mul_spec (q := oldR / r) h.signed (by omega)
  have hopp : oldS.Opposite product := by
    rcases hsign with hsign | hsign
    · exact .inr (.inl hsign)
    · simpa only [Bigint.Opposite, hsign] using h.opposite
  obtain ⟨next, hnext, hvalue', hint', hsigned', hkeep, hflip⟩ :=
    sub_spec h.signed_old hsigned hopp (by omega)
  refine ⟨product, next, hproduct, hnext, ?_⟩
  constructor
  · exact h.signed
  · exact hsigned'
  · rcases hsign with hsign | hsign
    · rw [hkeep hsign]
      exact h.opposite.symm
    · by_cases hno : s.sign = .noSign
      · exact .inl hno
      · exact .inr (.inr (hsign ▸ hflip (hsign ▸ hno)))
  · exact Nat.pos_of_ne_zero hr
  · rw [Nat.sub_eq_of_eq_add' hdiv.symm, ← h.gcd_eq, Nat.gcd_comm oldR r, Nat.gcd_rec r oldR,
      Nat.gcd_comm]
  · exact h.modEq
  · rw [hint', hint, sub_mul, Nat.cast_sub (Nat.div_mul_le_self _ _), Nat.cast_mul]
    apply h.modEq_old.sub
    calc s.toInt * ↑(oldR / r) * a = ↑(oldR / r) * (s.toInt * a) := by ring
      _ ≡ ↑(oldR / r) * r [ZMOD m] := h.modEq.mul_left _
  · rw [hvalue', hvalue]
    exact hcofactors

/-- With more passes than the remainder, the loop ends at the greatest common divisor. -/
lemma EeaInvariant.eeaLoop_spec {fuel : ℕ} (h : EeaInvariant a m oldR r oldS s)
    (hfuel : r < fuel) (hm : m < (2 ^ 32) ^ maxDigits) :
    ∃ x, eeaLoop fuel oldR r oldS s = some (a.gcd m, x) ∧ x.Signed ∧
      x.toInt * a ≡ a.gcd m [ZMOD m] := by
  induction fuel generalizing oldR r oldS s with
  | zero => cases hfuel
  | succ fuel ih =>
    rw [eeaLoop]
    split_ifs with hr
    · have hgcd : oldR = a.gcd m := by rw [← h.gcd_eq, hr, Nat.gcd_zero_right]
      rw [← hgcd]
      exact ⟨oldS, rfl, h.signed_old, h.modEq_old⟩
    · obtain ⟨product, next, hproduct, hnext, hinv⟩ := h.step hr hm
      have hlt : oldR - oldR / r * r < r := by
        rw [Nat.sub_eq_of_eq_add' (Nat.div_add_mod' oldR r).symm]
        exact Nat.mod_lt _ (Nat.pos_of_ne_zero hr)
      simp only [hproduct, hnext, Option.bind_eq_bind, Option.bind_some]
      exact ih hinv (by omega)

/-- A number that is coprime to a modulus of at most `MAX_DIGITS` digits has its inverse. -/
lemma inverseEea_of_coprime {fuel : ℕ} (ha : 0 < a) (hcoprime : a.Coprime m) (hm1 : 1 < m)
    (hm : m < (2 ^ 32) ^ maxDigits) (hfuel : m < fuel) :
    ∃ x, inverseEea fuel a m = some x ∧ x < m ∧ a * x ≡ 1 [MOD m] := by
  obtain ⟨s, hloop, hsigned, hmod⟩ := (eeaInvariant_init ha).eeaLoop_spec hfuel hm
  rw [hcoprime] at hloop hmod
  obtain ⟨hlt, hres⟩ := mod_spec hsigned (Nat.zero_lt_of_lt hm1)
  refine ⟨s.mod m, ?_, hlt, ?_⟩
  · simp [inverseEea, ha.ne', hloop]
  · apply Int.natCast_modEq_iff.mp
    calc ((a * s.mod m : ℕ) : ℤ) = s.mod m * a := by push_cast; ring
      _ ≡ s.toInt * a [ZMOD m] := hres.mul_right _
      _ ≡ 1 [ZMOD m] := hmod

/-- Below every modulus of the generator, `inverse_eea` returns the inverse, and no magnitude
outgrows the digit array. -/
theorem inverseEea_spec {fuel : ℕ} (hm : m ∈ orders) (ha : 0 < a) (ham : a < m)
    (hfuel : m < fuel) :
    ∃ x, inverseEea fuel a m = some x ∧ x < m ∧ a * x ≡ 1 [MOD m] := by
  have hprime := prime_of_mem_orders m hm
  have hcoprime : a.Coprime m :=
    (hprime.coprime_iff_not_dvd.mpr (Nat.not_dvd_of_pos_of_lt ha ham)).symm
  have hfit : m < (2 ^ 32) ^ maxDigits :=
    (lt_of_mem_orders m hm).trans_le (by norm_num [maxDigits])
  exact inverseEea_of_coprime ha hcoprime hprime.one_lt hfit hfuel

/-- The inverse of two modulo the order of `Ed25519Base`. -/
theorem inverseEea_spec_two :
    ∃ x, inverseEea (2 ^ 255) 2 (2 ^ 255 - 19) = some x ∧ x < 2 ^ 255 - 19 ∧
      2 * x ≡ 1 [MOD 2 ^ 255 - 19] :=
  inverseEea_spec (by decide) (by decide) (by decide) (by decide)

end MegaZK
