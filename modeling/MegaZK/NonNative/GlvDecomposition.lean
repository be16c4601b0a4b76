import MegaZK.NonNative.Glv
import Mathlib.Data.Int.ModEq
import Mathlib.Tactic.NormNum.Abs

/-! # The halves of a scalar

The kernel and the host split a scalar into the same two halves, which have at most 128 bits and
recombine to the scalar modulo the order. -/

namespace MegaZK

open LatticeRounding

variable {x y : ℕ} {z w : ℤ}

lemma toCanonicalBigUint_eq (hx : x < 2 ^ 256) :
    toCanonicalBigUint x = x % secp256k1ScalarOrder := by
  have horder : secp256k1ScalarOrder =
    0xFFFFFFFFFFFFFFFFFFFFFFFFFFFFFFFEBAAEDCE6AF48A03BBFD25E8CD0364141 := rfl
  rw [toCanonicalBigUint]
  split_ifs with h
  · rw [Nat.mod_eq_sub_mod h, Nat.mod_eq_of_lt (by omega)]
  · rw [Nat.mod_eq_of_lt (by omega)]

/-- A scalar of four limbs that stands for an integer modulo the order. -/
structure Represents (x : ℕ) (z : ℤ) : Prop where
  lt : x < 2 ^ 256
  modEq : (x : ℤ) ≡ z [ZMOD secp256k1ScalarOrder]

lemma Represents.of_eq (hx : x < 2 ^ 256) : Represents x x := ⟨hx, Int.ModEq.rfl⟩

/-- The canonical number of a scalar. -/
lemma Represents.canonical (h : Represents x z) :
    (toCanonicalBigUint x : ℤ) = z % secp256k1ScalarOrder := by
  rw [toCanonicalBigUint_eq h.lt, Int.natCast_mod]
  exact h.modEq

lemma canonical_lt (h : Represents x z) : toCanonicalBigUint x < secp256k1ScalarOrder := by
  rw [toCanonicalBigUint_eq h.lt]
  exact Nat.mod_lt _ (by decide)

lemma order_lt : secp256k1ScalarOrder < 2 ^ 256 := by decide

/-! ### Operations -/

lemma Represents.canonical_modEq (h : Represents x z) :
    (toCanonicalBigUint x : ℤ) ≡ z [ZMOD secp256k1ScalarOrder] := by
  rw [h.canonical]
  exact Int.mod_modEq _ _

/-- The reduced sum of two canonical numbers. -/
lemma Represents.add_reduced (hx : Represents x z) (hy : Represents y w) :
    Represents (if secp256k1ScalarOrder ≤ toCanonicalBigUint x + toCanonicalBigUint y then
      toCanonicalBigUint x + toCanonicalBigUint y - secp256k1ScalarOrder
      else toCanonicalBigUint x + toCanonicalBigUint y) (z + w) := by
  have hsum := hx.canonical_modEq.add hy.canonical_modEq
  have hxlt := canonical_lt hx
  have hylt := canonical_lt hy
  have horder := order_lt
  split_ifs with hle
  · refine ⟨by omega, ?_⟩
    rw [Nat.cast_sub hle, Nat.cast_add]
    exact (Int.sub_modulus_modEq_iff).mpr hsum
  · refine ⟨by omega, ?_⟩
    rw [Nat.cast_add]
    exact hsum

/-- The opposite of a canonical number. -/
lemma Represents.neg (hx : Represents x z) :
    Represents (secp256k1ScalarOrder - toCanonicalBigUint x) (-z) := by
  have hlt := canonical_lt hx
  have horder := order_lt
  refine ⟨by omega, ?_⟩
  rw [Nat.cast_sub hlt.le, sub_eq_add_neg]
  exact Int.modulus_add_modEq_iff.mpr hx.canonical_modEq.neg

lemma Represents.mul_reduced (hx : Represents x z) (hy : Represents y w) :
    Represents (toCanonicalBigUint x * toCanonicalBigUint y % secp256k1ScalarOrder) (z * w) := by
  have hmod : toCanonicalBigUint x * toCanonicalBigUint y % secp256k1ScalarOrder <
      secp256k1ScalarOrder := Nat.mod_lt _ (by decide)
  refine ⟨hmod.trans order_lt, ?_⟩
  rw [Int.natCast_mod, Nat.cast_mul]
  exact (Int.mod_modEq _ _).trans (hx.canonical_modEq.mul hy.canonical_modEq)

/-- A scalar of canonical number zero. -/
lemma Represents.of_zero (h : Represents x z) (hzero : toCanonicalBigUint x = 0) :
    Represents 0 (-z) := by
  have hmod := h.canonical_modEq.neg
  rw [hzero] at hmod
  exact ⟨by norm_num, hmod⟩

namespace Device

lemma represents_fromNoncanonical (h : Represents x z) :
    Represents (fromNoncanonicalBigUint x) z := by
  rw [fromNoncanonicalBigUint, Nat.mod_eq_of_lt h.lt]
  exact h

lemma represents_scalarAdd (hx : Represents x z) (hy : Represents y w) :
    Represents (scalarAdd x y) (z + w) := represents_fromNoncanonical (hx.add_reduced hy)

lemma represents_scalarSub (hx : Represents x z) (hy : Represents y w) :
    Represents (scalarSub x y) (z - w) := by
  rw [scalarSub]
  split_ifs with hzero
  · refine ⟨hx.lt, hx.modEq.trans ?_⟩
    have hw := hy.modEq.symm
    rw [hzero] at hw
    simpa using (Int.ModEq.refl z).sub hw.symm
  · rw [sub_eq_add_neg]
    exact represents_scalarAdd hx (represents_fromNoncanonical hy.neg)

lemma represents_scalarMul (hx : Represents x z) (hy : Represents y w) :
    Represents (scalarMul x y) (z * w) := represents_fromNoncanonical (hx.mul_reduced hy)

end Device

namespace Host

lemma fromNoncanonicalBigUint_eq (h : Represents x z) : fromNoncanonicalBigUint x = some x :=
  if_pos h.lt

lemma exists_scalarAdd (hx : Represents x z) (hy : Represents y w) :
    ∃ r, scalarAdd x y = some r ∧ Represents r (z + w) :=
  ⟨_, fromNoncanonicalBigUint_eq (hx.add_reduced hy), hx.add_reduced hy⟩

lemma exists_scalarNeg (hx : Represents x z) :
    ∃ r, scalarNeg x = some r ∧ Represents r (-z) := by
  rw [scalarNeg]
  split_ifs with hzero
  · exact ⟨0, rfl, hx.of_zero hzero⟩
  · exact ⟨_, fromNoncanonicalBigUint_eq hx.neg, hx.neg⟩

lemma exists_scalarSub (hx : Represents x z) (hy : Represents y w) :
    ∃ r, scalarSub x y = some r ∧ Represents r (z - w) := by
  obtain ⟨n, hn, hneg⟩ := exists_scalarNeg hy
  obtain ⟨r, hr, hsub⟩ := exists_scalarAdd hx hneg
  rw [scalarSub, hn, sub_eq_add_neg]
  exact ⟨r, hr, hsub⟩

lemma exists_scalarMul (hx : Represents x z) (hy : Represents y w) :
    ∃ r, scalarMul x y = some r ∧ Represents r (z * w) :=
  ⟨_, fromNoncanonicalBigUint_eq (hx.mul_reduced hy), hx.mul_reduced hy⟩

/-- Both sides round to the same number. -/
lemma ratioRound_eq (d : ℕ) :
    ratioRound d secp256k1ScalarOrder = Device.roundedQuotient d := by
  have hprime : secp256k1ScalarOrder.Prime :=
    prime_of_mem_orders secp256k1ScalarOrder (by decide)
  have horder : secp256k1ScalarOrder =
    0xFFFFFFFFFFFFFFFFFFFFFFFFFFFFFFFEBAAEDCE6AF48A03BBFD25E8CD0364141 := rfl
  rw [ratioRound, Device.roundedQuotient]
  rcases (Nat.dvd_prime hprime).mp (Nat.gcd_dvd_right d secp256k1ScalarOrder) with hone | hall
  · rw [hone, Nat.div_one, Nat.div_one]
    generalize hr : d % secp256k1ScalarOrder = r
    have hodd : ¬ secp256k1ScalarOrder % 2 = 0 := by decide
    have hiff : secp256k1ScalarOrder / 2 + 1 ≤ r ↔ secp256k1ScalarOrder ≤ r + r := by omega
    simp only [if_neg hodd, hiff]
  · have hdvd : secp256k1ScalarOrder ∣ d := hall ▸ Nat.gcd_dvd_left d secp256k1ScalarOrder
    have hmod : d % secp256k1ScalarOrder = 0 := Nat.mod_eq_zero_of_dvd hdvd
    rw [hall, Nat.div_self hprime.pos, hmod, Nat.mod_one, if_neg (by decide), Nat.div_one,
      if_neg (by decide)]

end Host

/-! ### Magnitudes -/

section Magnitude

lemma natAbs_lt (hz : |z| < 2 ^ 128) : z.natAbs < 2 ^ 128 := by
  have hcast : (z.natAbs : ℤ) < 2 ^ 128 := (Int.natCast_natAbs z).trans_lt hz
  exact_mod_cast hcast

variable (h : Represents x z) (hz : |z| < 2 ^ 128)
include h hz

/-- A short integer is recovered from its canonical number. -/
lemma canonical_of_short :
    (0 ≤ z ∧ toCanonicalBigUint x = z.natAbs) ∨
      (z < 0 ∧ secp256k1ScalarOrder - toCanonicalBigUint x = z.natAbs ∧
        toCanonicalBigUint x < secp256k1ScalarOrder) := by
  have horder : (secp256k1ScalarOrder : ℤ) =
    0xFFFFFFFFFFFFFFFFFFFFFFFFFFFFFFFEBAAEDCE6AF48A03BBFD25E8CD0364141 := rfl
  obtain ⟨hlow, hhigh⟩ := abs_lt.mp hz
  have hcanonical := h.canonical
  rw [horder] at hcanonical
  rcases le_or_gt 0 z with hpos | hneg
  · left
    rw [Int.emod_eq_of_lt hpos (by omega)] at hcanonical
    omega
  · right
    rw [← Int.add_emod_right, Int.emod_eq_of_lt (by omega) (by omega)] at hcanonical
    refine ⟨hneg, ?_, canonical_lt h⟩
    omega

lemma half_lt_canonical_iff : toCanonicalBigUint x > secp256k1ScalarOrder / 2 ↔ z < 0 := by
  have horder : secp256k1ScalarOrder =
    0xFFFFFFFFFFFFFFFFFFFFFFFFFFFFFFFEBAAEDCE6AF48A03BBFD25E8CD0364141 := rfl
  obtain ⟨hlow, hhigh⟩ := abs_lt.mp hz
  rcases canonical_of_short h hz with ⟨hpos, heq⟩ | ⟨hneg, heq, hlt⟩ <;> omega

/-- The canonical number of the opposite of a negative integer. -/
lemma canonical_opposite (hneg : z < 0) :
    toCanonicalBigUint (secp256k1ScalarOrder - toCanonicalBigUint x) = z.natAbs := by
  rcases canonical_of_short h hz with ⟨hpos, -⟩ | ⟨-, heq, -⟩
  · omega
  · have hlt := natAbs_lt hz
    have horder : 2 ^ 128 < secp256k1ScalarOrder := by decide
    rw [heq, toCanonicalBigUint, if_neg (by omega)]

lemma Device.magnitude_eq : Device.magnitude x = (z.natAbs, decide (z < 0)) := by
  have hiff := half_lt_canonical_iff h hz
  have horder := order_lt
  simp only [Device.magnitude, hiff]
  split_ifs with hneg
  · rw [Device.fromNoncanonicalBigUint, Nat.mod_eq_of_lt (by omega), canonical_opposite h hz hneg]
  · rcases canonical_of_short h hz with ⟨-, heq⟩ | ⟨hlt, -⟩
    · rw [heq]
    · exact absurd hlt hneg

lemma Host.exists_magnitude :
    ∃ r, Host.magnitude x = some (r, decide (z < 0)) ∧ toCanonicalBigUint r = z.natAbs := by
  have hiff := half_lt_canonical_iff h hz
  rw [Host.magnitude]
  split_ifs with hhalf
  · have hneg := hiff.mp hhalf
    refine ⟨_, ?_, canonical_opposite h hz hneg⟩
    rw [fromNoncanonicalBigUint_eq h.neg, decide_eq_true hneg]
    rfl
  · have hpos : ¬ z < 0 := mt hiff.mpr hhalf
    refine ⟨x, by rw [decide_eq_false hpos], ?_⟩
    rcases canonical_of_short h hz with ⟨-, heq⟩ | ⟨hneg, -⟩
    · exact heq
    · exact absurd hneg hpos

end Magnitude

/-! ### The decomposition -/

/-- The rounded quotient is off by at most one half. -/
lemma abs_roundedQuotient_le (d : ℕ) :
    |2 * ((d : ℤ) - secp256k1ScalarOrder * Device.roundedQuotient d)| ≤ secp256k1ScalarOrder := by
  have hdiv := Nat.div_add_mod d secp256k1ScalarOrder
  have hmod : d % secp256k1ScalarOrder < secp256k1ScalarOrder := Nat.mod_lt _ (by decide)
  rw [Device.roundedQuotient, abs_le]
  generalize d % secp256k1ScalarOrder = r at hdiv hmod
  generalize d / secp256k1ScalarOrder = q at hdiv
  have hcast : (d : ℤ) = secp256k1ScalarOrder * q + r := by exact_mod_cast hdiv.symm
  split_ifs with hle
  · push_cast
    rw [mul_add, hcast, mul_one]
    omega
  · rw [hcast]
    omega

/-- Rounded quotients of products with short numbers fit a scalar. -/
lemma represents_roundedQuotient {c k : ℕ} (hc : c < 2 ^ 129) (hk : k < secp256k1ScalarOrder) :
    Represents (Device.roundedQuotient (c * k)) (Device.roundedQuotient (c * k)) := by
  apply Represents.of_eq
  have hdiv : c * k / secp256k1ScalarOrder ≤ c :=
    Nat.div_le_of_le_mul ((Nat.mul_le_mul_left c hk.le).trans_eq (mul_comm _ _))
  rw [Device.roundedQuotient]
  split_ifs <;> omega

lemma represents_constants : Represents glvA1 glvA1 ∧ Represents glvA2 glvA2 ∧
    Represents glvMinusB1 glvMinusB1 ∧ Represents glvB2 glvB2 := by
  refine ⟨.of_eq ?_, .of_eq ?_, .of_eq ?_, .of_eq ?_⟩ <;> decide

section Decomposition

variable (k : ℕ)

/-- The rounded first coordinate of a scalar. -/
def glvC1 : ℕ := Device.roundedQuotient (toCanonicalBigUint glvB2 * toCanonicalBigUint k)

/-- The rounded second coordinate. -/
def glvC2 : ℕ := Device.roundedQuotient (toCanonicalBigUint glvMinusB1 * toCanonicalBigUint k)

lemma glvC1_eq : glvC1 k = Device.roundedQuotient (glvB2 * toCanonicalBigUint k) := by
  rw [glvC1, show toCanonicalBigUint glvB2 = glvB2 by decide]

lemma glvC2_eq : glvC2 k = Device.roundedQuotient (glvMinusB1 * toCanonicalBigUint k) := by
  rw [glvC2, show toCanonicalBigUint glvMinusB1 = glvMinusB1 by decide]

variable {k} in
lemma represents_glvC (hk : k < 2 ^ 256) :
    Represents (glvC1 k) (glvC1 k) ∧ Represents (glvC2 k) (glvC2 k) := by
  have hcanonical := canonical_lt (.of_eq hk)
  rw [glvC1_eq, glvC2_eq]
  exact ⟨represents_roundedQuotient (by decide) hcanonical,
    represents_roundedQuotient (by decide) hcanonical⟩

/-- The first half, as an integer. -/
def glvK1 : ℤ := toCanonicalBigUint k - glvC1 k * glvA1 - glvC2 k * glvA2

/-- The second half, as an integer. -/
def glvK2 : ℤ := glvC1 k * glvMinusB1 - glvC2 k * glvB2

/-- The lattice. -/
lemma det_eq : (glvA1 : ℤ) * glvB2 - glvA2 * -glvMinusB1 = secp256k1ScalarOrder := by
  decide

lemma abs_glvK1_lt : |glvK1 k| < 2 ^ 128 := by
  have h₁ := abs_roundedQuotient_le (glvB2 * toCanonicalBigUint k)
  have h₂ := abs_roundedQuotient_le (glvMinusB1 * toCanonicalBigUint k)
  rw [Nat.cast_mul, ← glvC1_eq] at h₁
  rw [Nat.cast_mul, ← glvC2_eq, ← neg_neg (glvMinusB1 : ℤ)] at h₂
  have hshort := abs_fst_le det_eq (by decide) h₁ h₂
  have hbasis : |(glvA1 : ℤ)| + |(glvA2 : ℤ)| < 2 * 2 ^ 128 := by decide
  rw [abs_mul, abs_two] at hshort
  have hlt := hshort.trans_lt hbasis
  exact lt_of_mul_lt_mul_left hlt two_pos.le

lemma abs_glvK2_lt : |glvK2 k| < 2 ^ 128 := by
  have h₁ := abs_roundedQuotient_le (glvB2 * toCanonicalBigUint k)
  have h₂ := abs_roundedQuotient_le (glvMinusB1 * toCanonicalBigUint k)
  rw [Nat.cast_mul, ← glvC1_eq] at h₁
  rw [Nat.cast_mul, ← glvC2_eq, ← neg_neg (glvMinusB1 : ℤ)] at h₂
  have hshort := abs_snd_le det_eq (by decide) h₁ h₂
  have hbasis : |-(glvMinusB1 : ℤ)| + |(glvB2 : ℤ)| < 2 * 2 ^ 128 := by decide
  have hneg : (glvC1 k : ℤ) * -glvMinusB1 + glvC2 k * glvB2 = -glvK2 k := by
    rw [glvK2]
    ring
  rw [hneg, abs_mul, abs_two, abs_neg] at hshort
  have hlt := hshort.trans_lt hbasis
  exact lt_of_mul_lt_mul_left hlt two_pos.le

variable {k} (hk : k < 2 ^ 256)
include hk

lemma Device.glvDecomposition_eq : Device.glvDecomposition k =
    ⟨(glvK1 k).natAbs, (glvK2 k).natAbs, glvK1 k < 0, glvK2 k < 0⟩ := by
  obtain ⟨hA1, hA2, hB1, hB2⟩ := represents_constants
  obtain ⟨hc1, hc2⟩ := represents_glvC hk
  have hk' : Represents k (toCanonicalBigUint k) := ⟨hk, (Represents.of_eq hk).canonical_modEq.symm⟩
  have h1 := magnitude_eq (z := glvK1 k) (represents_scalarSub
    (represents_scalarSub hk' (represents_scalarMul (represents_fromNoncanonical hc1) hA1))
    (represents_scalarMul (represents_fromNoncanonical hc2) hA2)) (abs_glvK1_lt k)
  have h2 := magnitude_eq (z := glvK2 k) (represents_scalarSub
    (represents_scalarMul (represents_fromNoncanonical hc1) hB1)
    (represents_scalarMul (represents_fromNoncanonical hc2) hB2)) (abs_glvK2_lt k)
  rw [glvC1, glvC2] at h1 h2
  simp only [glvDecomposition, h1, h2]

lemma Host.exists_decompose : ∃ parts, Host.decomposeSecp256k1Scalar k = some parts ∧
    toCanonicalBigUint parts.k1 = (glvK1 k).natAbs ∧
    toCanonicalBigUint parts.k2 = (glvK2 k).natAbs ∧
    parts.k1Neg = decide (glvK1 k < 0) ∧ parts.k2Neg = decide (glvK2 k < 0) := by
  obtain ⟨hA1, hA2, hB1, hB2⟩ := represents_constants
  obtain ⟨hc1, hc2⟩ := represents_glvC hk
  have hk' : Represents k (toCanonicalBigUint k) := ⟨hk, (Represents.of_eq hk).canonical_modEq.symm⟩
  have hround1 : fromNoncanonicalBigUint (ratioRound (toCanonicalBigUint glvB2 *
      toCanonicalBigUint k) secp256k1ScalarOrder) = some (glvC1 k) := by
    rw [ratioRound_eq, ← glvC1, fromNoncanonicalBigUint_eq hc1]
  have hround2 : fromNoncanonicalBigUint (ratioRound (toCanonicalBigUint glvMinusB1 *
      toCanonicalBigUint k) secp256k1ScalarOrder) = some (glvC2 k) := by
    rw [ratioRound_eq, ← glvC2, fromNoncanonicalBigUint_eq hc2]
  obtain ⟨p11, hp11, hr11⟩ := exists_scalarMul hc1 hA1
  obtain ⟨p12, hp12, hr12⟩ := exists_scalarMul hc2 hA2
  obtain ⟨d1, hd1, hrd1⟩ := exists_scalarSub hk' hr11
  obtain ⟨k1, hk1, hrk1⟩ := exists_scalarSub hrd1 hr12
  obtain ⟨p21, hp21, hr21⟩ := exists_scalarMul hc1 hB1
  obtain ⟨p22, hp22, hr22⟩ := exists_scalarMul hc2 hB2
  obtain ⟨k2, hk2, hrk2⟩ := exists_scalarSub hr21 hr22
  obtain ⟨m1, hm1, hv1⟩ := exists_magnitude (z := glvK1 k) hrk1 (abs_glvK1_lt k)
  obtain ⟨m2, hm2, hv2⟩ := exists_magnitude (z := glvK2 k) hrk2 (abs_glvK2_lt k)
  refine ⟨⟨m1, m2, decide (glvK1 k < 0), decide (glvK2 k < 0)⟩, ?_, hv1, hv2, rfl, rfl⟩
  simp only [decomposeSecp256k1Scalar, Option.bind_eq_bind]
  rw [hround1, Option.bind_some, hround2, Option.bind_some, hp11, Option.bind_some, hd1,
    Option.bind_some, hp12, Option.bind_some, hk1, Option.bind_some, hp21, Option.bind_some,
    hp22, Option.bind_some, hk2, Option.bind_some, hm1, Option.bind_some, hm2, Option.bind_some]
  rfl

/-- The halves recombine to the scalar. -/
lemma glvK1_add_glvK2 : glvK1 k + glvK2 k * glvS ≡ k [ZMOD secp256k1ScalarOrder] := by
  have h1 : (secp256k1ScalarOrder : ℤ) ∣ glvA1 - glvS * glvMinusB1 := by decide
  have h2 : (secp256k1ScalarOrder : ℤ) ∣ glvA2 + glvS * glvB2 := by decide
  obtain ⟨q1, hq1⟩ := h1
  obtain ⟨q2, hq2⟩ := h2
  refine Int.ModEq.trans ?_ (Represents.of_eq hk).canonical_modEq
  rw [Int.modEq_iff_dvd]
  refine ⟨glvC1 k * q1 + glvC2 k * q2, ?_⟩
  rw [glvK1, glvK2]
  linear_combination (glvC1 k : ℤ) * hq1 + (glvC2 k : ℤ) * hq2

end Decomposition

/-- The integer of a magnitude and a sign. -/
def signed (neg : Bool) (magnitude : ℕ) : ℤ := if neg then -magnitude else magnitude

lemma signed_natAbs (z : ℤ) : signed (decide (z < 0)) z.natAbs = z := by
  rw [signed]
  split_ifs with h
  · have hneg := of_decide_eq_true h
    omega
  · have hpos := of_decide_eq_false (Bool.eq_false_iff.mpr h)
    omega

/-- The kernel splits every scalar into two halves below `2 ^ 128` that recombine to it, and they
are those of the host. -/
theorem glvDecomposition_spec {k : ℕ} (hk : k < 2 ^ 256) :
    (Device.glvDecomposition k).k1 < 2 ^ 128 ∧ (Device.glvDecomposition k).k2 < 2 ^ 128 ∧
      signed (Device.glvDecomposition k).k1Neg (Device.glvDecomposition k).k1 +
          signed (Device.glvDecomposition k).k2Neg (Device.glvDecomposition k).k2 * glvS ≡
        k [ZMOD secp256k1ScalarOrder] ∧
      (∃ parts, Host.decomposeSecp256k1Scalar k = some parts ∧
        toCanonicalBigUint parts.k1 = (Device.glvDecomposition k).k1 ∧
        toCanonicalBigUint parts.k2 = (Device.glvDecomposition k).k2 ∧
        parts.k1Neg = (Device.glvDecomposition k).k1Neg ∧
        parts.k2Neg = (Device.glvDecomposition k).k2Neg) ∧
      ∀ limb : ℕ → GoldilocksField, getBigUintTarget 8 limb = k →
        Host.glvDecompositionRunOnce limb =
          some (Device.glvDecompositionGeneratorNew fun i => limb (7 - i)) := by
  have h1 := natAbs_lt (abs_glvK1_lt k)
  have h2 := natAbs_lt (abs_glvK2_lt k)
  obtain ⟨parts, hparts, hk1, hk2, hneg1, hneg2⟩ := Host.exists_decompose hk
  rw [Device.glvDecomposition_eq hk]
  refine ⟨h1, h2, ?_, ⟨parts, hparts, hk1, hk2, hneg1, hneg2⟩, ?_⟩
  · rw [signed_natAbs, signed_natAbs]
    exact glvK1_add_glvK2 hk
  · rintro limb rfl
    have hread : (List.range 8).foldl (fun k i => k <<< 32 + (limb (7 - i)).val) 0 =
        getBigUintTarget 8 limb := rfl
    rw [Device.glvDecompositionGeneratorNew, hread, Device.fromNoncanonicalBigUint,
      Nat.mod_eq_of_lt hk, Device.glvDecomposition_eq hk]
    simp only [Host.glvDecompositionRunOnce, Host.fromNoncanonicalBigUint, if_pos hk, hparts,
      Option.bind_eq_bind, Option.bind_some, hk1, hk2, hneg1, hneg2, setBigUintTarget,
      if_pos (h1.trans_eq (by norm_num : 2 ^ 128 = (2 ^ 32) ^ 4)),
      if_pos (h2.trans_eq (by norm_num : 2 ^ 128 = (2 ^ 32) ^ 4)), Option.pure_def]

theorem glvDecomposition_spec_two :
    (Device.glvDecomposition (2 ^ 255)).k1 < 2 ^ 128 ∧
      (Device.glvDecomposition (2 ^ 255)).k2 < 2 ^ 128 :=
  ⟨(glvDecomposition_spec (by norm_num)).1, (glvDecomposition_spec (by norm_num)).2.1⟩

end MegaZK
