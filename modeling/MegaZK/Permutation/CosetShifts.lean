import MegaZK.Fri.Folding

/-! # Names of wires

`get_unique_coset_shifts`: the powers of the generator by which the cosets of the columns are
shifted, so that the names of the wires differ. -/

namespace MegaZK

/-- `get_unique_coset_shifts`; the size of the subgroup is cast to 32 bits. -/
def getUniqueCosetShifts (subgroupSize numShifts : ℕ) : Option (List GoldilocksField) :=
  if subgroupSize % 2 ^ 32 = 0 then none
  else
    let numCosets := (goldilocksOrder - 1) / (subgroupSize % 2 ^ 32)
    if numShifts ≤ numCosets then some ((List.range numShifts).map fun i => 7 ^ i) else none

lemma seven_pow_div_ne_one {q : ℕ} (hq : q.Prime) (hdvd : q ∣ goldilocksOrder - 1) :
    (7 : GoldilocksField) ^ ((goldilocksOrder - 1) / q) ≠ 1 := by
  intro h
  have hlt : (goldilocksOrder - 1) / q < 2 ^ 64 :=
    (Nat.div_le_self _ _).trans_lt (by decide)
  have hmod := (Pratt.natCast_pow_eq_one_iff (p := goldilocksOrder) (by decide) 7 _).mp h
  rw [← Pratt.powMod_eq goldilocksOrder hlt] at hmod
  rcases eq_of_prime_dvd_pred hq hdvd with rfl | rfl | rfl | rfl | rfl | rfl
  all_goals exact absurd hmod (by decide)

/-- Seven generates the multiplicative group. -/
lemma orderOf_seven : orderOf (7 : GoldilocksField) = goldilocksOrder - 1 :=
  orderOf_eq_of_pow_and_pow_div_prime (by decide)
    (ZMod.pow_card_sub_one_eq_one (by decide)) fun _ hq hdvd => seven_pow_div_ne_one hq hdvd

lemma seven_pow_inj {m n : ℕ} (hm : m < goldilocksOrder - 1) (hn : n < goldilocksOrder - 1)
    (h : (7 : GoldilocksField) ^ m = 7 ^ n) : m = n := by
  have hroot := IsPrimitiveRoot.orderOf (7 : GoldilocksField)
  rw [orderOf_seven] at hroot
  exact hroot.pow_inj hm hn h

variable {bits numShifts : ℕ} {shifts : List GoldilocksField}

/-- When the function returns, the shifts fit into the multiplicative group. -/
lemma getUniqueCosetShifts_eq_some (h : getUniqueCosetShifts (2 ^ bits) numShifts = some shifts)
    (hbits : bits ≤ 32) : bits < 32 ∧ numShifts * 2 ^ bits ≤ goldilocksOrder - 1 ∧
      shifts = (List.range numShifts).map fun i => 7 ^ i := by
  have hlt : bits < 32 := by
    refine lt_of_le_of_ne hbits ?_
    rintro rfl
    simp [getUniqueCosetShifts] at h
  have hmod : 2 ^ bits % 2 ^ 32 = 2 ^ bits := Nat.mod_eq_of_lt (Nat.pow_lt_pow_right (by decide) hlt)
  simp only [getUniqueCosetShifts, hmod, (Nat.two_pow_pos bits).ne', ↓reduceIte,
    Option.ite_none_right_eq_some, Option.some.injEq] at h
  exact ⟨hlt, (Nat.le_div_iff_mul_le (Nat.two_pow_pos bits)).mp h.1, h.2.symm⟩

lemma getUniqueCosetShifts_isSome (hbits : bits < 32)
    (hfit : numShifts * 2 ^ bits ≤ goldilocksOrder - 1) :
    getUniqueCosetShifts (2 ^ bits) numShifts = some ((List.range numShifts).map fun i => 7 ^ i) := by
  have hmod : 2 ^ bits % 2 ^ 32 = 2 ^ bits := Nat.mod_eq_of_lt (Nat.pow_lt_pow_right (by decide) hbits)
  simp only [getUniqueCosetShifts, hmod, (Nat.two_pow_pos bits).ne', ↓reduceIte,
    (Nat.le_div_iff_mul_le (Nat.two_pow_pos bits)).mpr hfit]

/-- The cosets of the subgroup of size `2 ^ bits` by different shifts have no element in common,
and no coset has an element twice. -/
lemma cosetShifts_unique (hbits : bits ≤ 32)
    (h : getUniqueCosetShifts (2 ^ bits) numShifts = some shifts) {i j r s : ℕ}
    (hi : i < numShifts) (hj : j < numShifts) (hr : r < 2 ^ bits) (hs : s < 2 ^ bits)
    (heq : shifts.getD i 0 * primitiveRootOfUnity bits ^ r =
      shifts.getD j 0 * primitiveRootOfUnity bits ^ s) : i = j ∧ r = s := by
  obtain ⟨-, hfit, rfl⟩ := getUniqueCosetShifts_eq_some h hbits
  have hroot := isPrimitiveRoot_primitiveRootOfUnity hbits
  have hshift : ∀ k < numShifts,
      ((List.range numShifts).map fun i => (7 : GoldilocksField) ^ i).getD k 0 = 7 ^ k := by
    intro k hk
    simp [hk]
  rw [hshift i hi, hshift j hj] at heq
  -- the subgroup vanishes in the power of its order
  have hpow : ∀ k t : ℕ, ((7 : GoldilocksField) ^ k * primitiveRootOfUnity bits ^ t) ^ 2 ^ bits =
      7 ^ (k * 2 ^ bits) := by
    intro k t
    rw [mul_pow, ← pow_mul, pow_right_comm, hroot.pow_eq_one, one_pow, mul_one]
  have hlt : ∀ k < numShifts, k * 2 ^ bits < goldilocksOrder - 1 := by
    intro k hk
    exact ((Nat.mul_lt_mul_right (Nat.two_pow_pos bits)).mpr hk).trans_le hfit
  have hij : i = j := by
    have hexp := congrArg (· ^ 2 ^ bits) heq
    simp only [hpow] at hexp
    exact Nat.eq_of_mul_eq_mul_right (Nat.two_pow_pos bits)
      (seven_pow_inj (hlt i hi) (hlt j hj) hexp)
  subst hij
  refine ⟨rfl, hroot.pow_inj hr hs ?_⟩
  exact mul_left_cancel₀ (pow_ne_zero i (by decide)) heq

end MegaZK
