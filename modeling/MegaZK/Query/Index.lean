import Mathlib.Data.Nat.ModEq
import Mathlib.Tactic.Common
import Mathlib.Tactic.NormNum
import MegaZK.Assembly.Basic
import MegaZK.Goldilocks

/-! # Query indices

How the query kernels turn a squeezed field element into a leaf index, and how the verifier does.
Field elements of the device are 64-bit words that need not be reduced. -/

namespace MegaZK

/-- `field<3>`: a word of the sponge, as its low 64 bits and its high limb. -/
structure Field3 where
  low : ℕ
  high : ℕ
  low_lt : low < 2 ^ 64
  high_lt : high < 2 ^ 32

namespace Field3

variable (w : Field3)

/-- The field element that a word stands for, in canonical form. -/
def canonical : ℕ := (w.low + w.high * 2 ^ 64) % goldilocksOrder

/-- `field3_to_field2`: the high limb counts `2 ^ 32 - 1`, and so does a carry. -/
def toField2 : ℕ :=
  let z := w.low + (w.high * 2 ^ 32 - w.high)
  if z < 2 ^ 64 then z else z - 2 ^ 64 + (2 ^ 32 - 1)

lemma toField2_lt : w.toField2 < 2 ^ 64 := by
  have hlow := w.low_lt
  have hhigh := w.high_lt
  unfold toField2
  dsimp only
  split_ifs <;> omega

lemma toField2_modEq : w.toField2 ≡ w.low + w.high * 2 ^ 64 [MOD goldilocksOrder] := by
  have hlow := w.low_lt
  have hhigh := w.high_lt
  unfold toField2 goldilocksOrder
  dsimp only
  split_ifs with hz
  · refine (Nat.modEq_iff_dvd' ?_).mpr ⟨w.high, ?_⟩ <;> omega
  · refine (Nat.modEq_iff_dvd' ?_).mpr ⟨w.high + 1, ?_⟩ <;> omega

/-- A word is its canonical form, or larger by the order. -/
lemma toField2_eq : w.toField2 = w.canonical ∨ w.toField2 = w.canonical + goldilocksOrder := by
  have hlt := w.toField2_lt
  have hmod : w.toField2 % goldilocksOrder = w.canonical := w.toField2_modEq
  have hdm := Nat.mod_add_div w.toField2 goldilocksOrder
  rw [hmod] at hdm
  have hdiv : w.toField2 / goldilocksOrder < 2 := by
    apply Nat.div_lt_of_lt_mul
    unfold goldilocksOrder
    omega
  cases hcase : w.toField2 / goldilocksOrder with
  | zero =>
    left
    rw [hcase] at hdm
    omega
  | succ k =>
    obtain rfl : k = 0 := by omega
    right
    rw [hcase] at hdm
    omega

lemma canonical_lt : w.canonical < goldilocksOrder := Nat.mod_lt _ (by decide)

lemma toField2_lt_order_iff : w.toField2 < goldilocksOrder ↔ w.toField2 = w.canonical := by
  have hlt := w.canonical_lt
  rcases w.toField2_eq with h | h <;> omega

end Field3

/-! ### The kernels -/

/-- `uint64_t degree = 1 << log_n`: the shift is done on an `int`, and is undefined from 32 on. -/
def shlInt (k : ℕ) : Option ℕ :=
  if k < 31 then some (2 ^ k) else if k = 31 then some (2 ^ 64 - 2 ^ 31) else none

/-- The indices that the initial query kernels use for one query, and what they leave in
`x_indexes`. An oracle without columns to evaluate does not launch `fri_initial_leaves_seg`. -/
def initialIndices (degree : ℕ) : List Bool → ℕ → List ℕ × ℕ
  | [], x => ([], x)
  | hasSegments :: rest, x =>
    let segments := if hasSegments then [x % degree] else []
    -- both kernels store the index they reduced
    let x := if hasSegments then x % degree else x
    let reduced := x % degree
    let siblings := reduced % degree
    let (indices, x) := initialIndices degree rest reduced
    (segments ++ reduced :: siblings :: indices, x)

/-- The indices that `fri_step` uses, round by round. -/
def stepIndices : List ℕ → ℕ → List ℕ
  | [], _ => []
  | arityBits :: rest, x => x >>> arityBits :: stepIndices rest (x >>> arityBits)

/-- All indices that the query kernels derive from the word `raw`. -/
def kernelIndices (ldeBits : ℕ) (oracles : List Bool) (reductionArityBits : List ℕ) (raw : ℕ) :
    Option (List ℕ) := do
  let degree ← shlInt ldeBits
  let (indices, x) := initialIndices degree oracles raw
  return indices ++ stepIndices reductionArityBits x

/-- The indices of the verifier: the canonical form modulo the LDE size for all initial trees, and
its shifts for the folding steps. -/
def verifierIndices (ldeBits : ℕ) (oracles : List Bool) (reductionArityBits : List ℕ)
    (canonical : ℕ) : List ℕ :=
  let x := canonical % 2 ^ ldeBits
  oracles.flatMap (fun hasSegments => (if hasSegments then [x] else []) ++ [x, x]) ++
    stepIndices reductionArityBits x

/-! ### Agreement -/

lemma initialIndices_of_lt {degree : ℕ} (oracles : List Bool) {x : ℕ} (hx : x < degree) :
    initialIndices degree oracles x =
      (oracles.flatMap fun hasSegments => (if hasSegments then [x] else []) ++ [x, x], x) := by
  induction oracles with
  | nil => rfl
  | cons hasSegments rest ih =>
    simp only [initialIndices, Nat.mod_eq_of_lt hx, ite_self, ih, List.flatMap_cons]
    simp

/-- After the first reduction the index stays. -/
lemma initialIndices_eq {degree : ℕ} (hdegree : 0 < degree) {oracles : List Bool}
    (hne : oracles ≠ []) (x : ℕ) :
    initialIndices degree oracles x =
      (oracles.flatMap fun hasSegments =>
        (if hasSegments then [x % degree] else []) ++ [x % degree, x % degree], x % degree) := by
  cases oracles with
  | nil => exact absurd rfl hne
  | cons hasSegments rest =>
    have hlt := Nat.mod_lt x hdegree
    have hstored : (if hasSegments = true then x % degree else x) % degree = x % degree := by
      cases hasSegments <;> simp
    simp only [initialIndices, hstored, Nat.mod_mod, initialIndices_of_lt rest hlt,
      List.flatMap_cons]
    simp

/-- The lists agree exactly when the first index does. -/
lemma kernelIndices_eq_iff {degree ldeBits : ℕ} {oracles : List Bool} (hne : oracles ≠ [])
    (reductionArityBits : List ℕ) (hshl : shlInt ldeBits = some degree) (hdegree : 0 < degree)
    (raw canonical : ℕ) :
    kernelIndices ldeBits oracles reductionArityBits raw =
        some (verifierIndices ldeBits oracles reductionArityBits canonical) ↔
      raw % degree = canonical % 2 ^ ldeBits := by
  simp only [kernelIndices, hshl, Option.bind_eq_bind, Option.bind_some, Option.pure_def,
    initialIndices_eq hdegree hne, verifierIndices, Option.some.injEq]
  constructor
  · intro h
    cases oracles with
    | nil => exact absurd rfl hne
    | cons hasSegments rest =>
      have hhead := congrArg List.head? h
      cases hasSegments <;> simpa using hhead
  · intro h
    rw [h]

/-- A word that is not reduced gives another index for every size from two on. -/
lemma mod_add_order_ne {k : ℕ} (hk : 0 < k) (x : ℕ) :
    (x + goldilocksOrder) % 2 ^ k ≠ x % 2 ^ k := by
  intro h
  have hmod : x + goldilocksOrder ≡ x + 0 [MOD 2 ^ k] := h
  have hdvd : 2 ^ k ∣ goldilocksOrder := (Nat.modEq_zero_iff_dvd).mp (Nat.ModEq.add_left_cancel' x hmod)
  have htwo : 2 ∣ goldilocksOrder := (dvd_pow_self 2 hk.ne').trans hdvd
  exact absurd htwo (by decide)

namespace Field3

variable (w : Field3)

lemma mod_eq_iff_of_lt {k : ℕ} (hk : 0 < k) :
    w.toField2 % 2 ^ k = w.canonical % 2 ^ k ↔ w.toField2 < goldilocksOrder := by
  constructor
  · intro h
    cases w.toField2_eq with
    | inl heq => exact w.toField2_lt_order_iff.mpr heq
    | inr heq =>
      rw [heq] at h
      exact absurd h (mod_add_order_ne hk w.canonical)
  · intro h
    rw [w.toField2_lt_order_iff.mp h]

/-- With 31 bits the modulus is a sign-extended number, larger than the order. -/
lemma mod_eq_iff_thirtyOne :
    w.toField2 % (2 ^ 64 - 2 ^ 31) = w.canonical % 2 ^ 31 ↔ w.toField2 < 2 ^ 31 := by
  have hlt := w.toField2_lt
  have hcanonical := w.canonical_lt
  have heq := w.toField2_eq
  unfold goldilocksOrder at hcanonical heq
  constructor
  · intro h
    by_contra hge
    by_cases hmod : w.toField2 < 2 ^ 64 - 2 ^ 31
    · rw [Nat.mod_eq_of_lt hmod] at h
      omega
    · rw [Nat.mod_eq_sub_mod (by omega), Nat.mod_eq_of_lt (by omega)] at h
      omega
  · intro h
    rw [Nat.mod_eq_of_lt (by omega)]
    omega

/-- All query kernels use the index of the verifier exactly when the word is reduced and the LDE has
at most `2 ^ 30` points, up to a single point or small words at `2 ^ 31` points. -/
theorem kernelIndices_eq_verifierIndices_iff (ldeBits : ℕ) (hasSegments : PolySegment → Bool)
    (reductionArityBits : List ℕ) :
    kernelIndices ldeBits (PolySegment.all.map hasSegments) reductionArityBits w.toField2 =
        some (verifierIndices ldeBits (PolySegment.all.map hasSegments) reductionArityBits
          w.canonical) ↔
      ldeBits = 0 ∨ (ldeBits ≤ 30 ∧ w.toField2 < goldilocksOrder) ∨
        (ldeBits = 31 ∧ w.toField2 < 2 ^ 31) := by
  have hne : PolySegment.all.map hasSegments ≠ [] := by simp [PolySegment.all]
  rcases Nat.lt_trichotomy ldeBits 31 with hlt | heq | hgt
  · have hshl : shlInt ldeBits = some (2 ^ ldeBits) := if_pos hlt
    rw [MegaZK.kernelIndices_eq_iff hne reductionArityBits hshl (by positivity)]
    cases ldeBits with
    | zero => simp [Nat.mod_one]
    | succ k =>
      rw [w.mod_eq_iff_of_lt k.succ_pos]
      constructor
      · intro h
        exact .inr (.inl ⟨by omega, h⟩)
      · rintro (h | ⟨-, h⟩ | ⟨h, -⟩)
        · omega
        · exact h
        · omega
  · subst heq
    have hshl : shlInt 31 = some (2 ^ 64 - 2 ^ 31) := rfl
    rw [MegaZK.kernelIndices_eq_iff hne reductionArityBits hshl (by decide), w.mod_eq_iff_thirtyOne]
    constructor
    · intro h
      exact .inr (.inr ⟨rfl, h⟩)
    · rintro (h | ⟨h, -⟩ | ⟨-, h⟩)
      · omega
      · omega
      · exact h
  · have hshl : shlInt ldeBits = none := by
      rw [shlInt, if_neg (by omega), if_neg (by omega)]
    simp only [kernelIndices, hshl, Option.bind_eq_bind, Option.bind_none, reduceCtorEq, false_iff]
    omega

/-- The order itself is a legal word for zero: the kernels look at leaf 1, the verifier at leaf 0. -/
theorem kernelIndices_ne_verifierIndices_order :
    let w : Field3 := ⟨goldilocksOrder, 0, by decide, by decide⟩
    kernelIndices 13 (PolySegment.all.map fun _ => true) [4, 4] w.toField2 ≠
      some (verifierIndices 13 (PolySegment.all.map fun _ => true) [4, 4] w.canonical) := by
  decide

end Field3

end MegaZK
