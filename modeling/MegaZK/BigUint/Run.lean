import MegaZK.BigUint.Value

/-! # Runs of operations

Sequences of operations on big numbers, and when the comparisons agree with the numbers. A length
decides before the digits do, so two forms of zero (`zero` has one digit, a trimmed zero has none)
and untrimmed lengths break them. -/

namespace MegaZK

open Horner Radix

namespace BigUint

variable {x y : BigUint} {z : ℕ}

/-- The form of the numbers of a run whose zeros have `z` digits: trimmed, or a zero of one
digit. -/
structure Canonical (z : ℕ) (x : BigUint) : Prop where
  clean : x.Clean
  top_ne_zero : ∀ n, x.length = n + 1 → x.value ≠ 0 → x.digit n ≠ 0
  length_zero : x.value = 0 → x.length = z ∧ z ≤ 1

lemma Trimmed.canonical (hx : x.Trimmed) (hz : x.value = 0 → z = 0) : x.Canonical z where
  clean := hx.clean
  top_ne_zero := fun n hn _ => hx.top_ne_zero n hn
  length_zero := by
    intro hzero
    rw [hx.value_eq_zero.mp hzero, hz hzero]
    exact ⟨rfl, Nat.zero_le _⟩

lemma canonical_zero : zero.Canonical 1 where
  clean := fun _ _ => rfl
  top_ne_zero := fun _ _ hne => absurd value_zero hne
  length_zero := fun _ => ⟨rfl, le_rfl⟩

lemma Canonical.isZero_iff_value (hx : x.Canonical z) : x.isZero = true ↔ x.value = 0 := by
  constructor
  · exact value_of_isZero
  · intro hzero
    obtain ⟨hlength, hz⟩ := hx.length_zero hzero
    rw [isZero_iff]
    rcases Nat.le_one_iff_eq_zero_or_eq_one.mp hz with rfl | rfl
    · exact .inr hlength
    · refine .inl ⟨hlength, ?_⟩
      rw [value, hlength, evalSum_succ, evalSum_zero] at hzero
      simpa using hzero

/-! ### Comparisons -/

lemma eqLoop_iff (x y : BigUint) (n : ℕ) :
    eqLoop x y n = true ↔ evalSum x.digit n (2 ^ 32) = evalSum y.digit n (2 ^ 32) := by
  induction n with
  | zero => simp [eqLoop]
  | succ n ih =>
    rw [eqLoop]
    split_ifs with hne
    · simp only [false_iff]
      rcases Nat.lt_or_gt_of_ne hne with hlt | hlt
      · exact (evalSum_lt_of_top (fun i _ => x.digit_lt i) hlt).ne
      · exact (evalSum_lt_of_top (fun i _ => y.digit_lt i) hlt).ne'
    · rw [ih, evalSum_succ, evalSum_succ, not_ne_iff.mp hne]
      exact Nat.add_right_cancel_iff.symm

lemma ltLoop_iff (x y : BigUint) (n : ℕ) :
    ltLoop x y n = true ↔ evalSum x.digit n (2 ^ 32) < evalSum y.digit n (2 ^ 32) := by
  induction n with
  | zero => simp [ltLoop]
  | succ n ih =>
    rw [ltLoop]
    split_ifs with hne
    · rw [decide_eq_true_eq]
      constructor
      · exact evalSum_lt_of_top fun i _ => x.digit_lt i
      · intro hlt
        by_contra hge
        have hgt : y.digit n < x.digit n := by omega
        exact absurd (evalSum_lt_of_top (b := 2 ^ 32) (fun i _ => y.digit_lt i) hgt)
          (Nat.not_lt.mpr hlt.le)
    · rw [ih, evalSum_succ, evalSum_succ, not_ne_iff.mp hne]
      exact Nat.add_lt_add_iff_right.symm

/-- The shorter number is smaller. -/
lemma Canonical.value_lt_of_length (hx : x.Canonical z) (hy : y.Canonical z)
    (hlt : x.length < y.length) : x.value < y.value := by
  cases hn : y.length with
  | zero => omega
  | succ n =>
    by_cases hzero : y.value = 0
    · obtain ⟨hlength, hz⟩ := hy.length_zero hzero
      have hx0 : x.value = 0 := by
        obtain hxl : x.length = 0 := by omega
        rw [value, hxl, evalSum_zero]
      have := (hx.length_zero hx0).1
      omega
    · calc x.value < (2 ^ 32) ^ x.length := x.value_lt
        _ ≤ (2 ^ 32) ^ n := Nat.pow_le_pow_right (by norm_num) (by omega)
        _ ≤ y.value := by
          rw [value, hn]
          exact le_evalSum (hy.top_ne_zero n hn hzero)

lemma Canonical.lt_iff (hx : x.Canonical z) (hy : y.Canonical z) :
    x.lt y = true ↔ x.value < y.value := by
  unfold lt
  split_ifs with hne
  · rw [decide_eq_true_eq]
    constructor
    · exact hx.value_lt_of_length hy
    · intro hlt
      by_contra hge
      exact absurd (hy.value_lt_of_length hx (by omega)) (Nat.not_lt.mpr hlt.le)
  · rw [ltLoop_iff]
    nth_rewrite 2 [not_ne_iff.mp hne]
    rfl

lemma Canonical.eq_iff (hx : x.Canonical z) (hy : y.Canonical z) :
    x.eq y = true ↔ x.value = y.value := by
  unfold BigUint.eq
  split_ifs with hne
  · simp only [false_iff]
    rcases Nat.lt_or_gt_of_ne hne with hlt | hlt
    · exact (hx.value_lt_of_length hy hlt).ne
    · exact (hy.value_lt_of_length hx hlt).ne'
  · rw [eqLoop_iff]
    nth_rewrite 2 [not_ne_iff.mp hne]
    rfl

/-- All comparison operators agree with the numbers. -/
structure Compares (x y : BigUint) : Prop where
  lt : x.lt y = decide (x.value < y.value)
  eq : x.eq y = decide (x.value = y.value)
  le : x.le y = decide (x.value ≤ y.value)
  gt : x.gt y = decide (x.value > y.value)
  ge : x.ge y = decide (x.value ≥ y.value)

lemma Canonical.compares (hx : x.Canonical z) (hy : y.Canonical z) : Compares x y := by
  have hlt := Bool.eq_iff_iff.mpr ((hx.lt_iff hy).trans decide_eq_true_iff.symm)
  have heq := Bool.eq_iff_iff.mpr ((hx.eq_iff hy).trans decide_eq_true_iff.symm)
  have hle : x.le y = decide (x.value ≤ y.value) := by
    rw [BigUint.le, hlt, heq, ← Bool.decide_or]
    exact decide_eq_decide.mpr Nat.le_iff_lt_or_eq.symm
  refine ⟨hlt, heq, hle, ?_, ?_⟩
  · rw [BigUint.gt, hle, ← decide_not]
    exact decide_eq_decide.mpr Nat.not_le
  · rw [BigUint.ge, hlt, ← decide_not]
    exact decide_eq_decide.mpr Nat.not_lt

/-! ### Operations -/

/-- An operation on the numbers produced so far, given by their places. -/
inductive Op
  | ofU64 (v : ℕ)
  | ofLimbs (limbs : ℕ → ℕ)
  | fromBytesLe (bytes : ℕ → ℕ)
  | zero
  | one
  | add (i j : ℕ)
  | sub (i j : ℕ)
  | mul (i j : ℕ)
  | shl (i shift : ℕ)
  | shr (i shift : ℕ)

namespace Op

/-- The number that an operation produces. -/
def result (s : List BigUint) : Op → Option BigUint
  | .ofU64 v => BigUint.ofU64 v
  | .ofLimbs limbs => BigUint.ofLimbs limbs
  | .fromBytesLe bytes => some (BigUint.fromBytesLe bytes)
  | .zero => some BigUint.zero
  | .one => some BigUint.one
  | .add i j => do (← s[i]?).add (← s[j]?)
  | .sub i j => do (← s[i]?).sub (← s[j]?)
  | .mul i j => do (← s[i]?).mul (← s[j]?)
  | .shl i shift => do (← s[i]?).shl shift
  | .shr i shift => do return (← s[i]?).shr shift

/-- The natural number that it stands for; a difference must not be negative. -/
def natural (vals : List ℕ) : Op → Option ℕ
  | .ofU64 v => some (v % 2 ^ 64)
  | .ofLimbs limbs => some (evalSum (fun i => limbs i % 2 ^ 64) 4 (2 ^ 64))
  | .fromBytesLe bytes => some (evalSum (fun i => bytes i % 2 ^ 8) 32 (2 ^ 8))
  | .zero => some 0
  | .one => some 1
  | .add i j => do return (← vals[i]?) + (← vals[j]?)
  | .sub i j => do
    let a ← vals[i]?
    let b ← vals[j]?
    if b ≤ a then return a - b else none
  | .mul i j => do return (← vals[i]?) * (← vals[j]?)
  | .shl i shift => do return (← vals[i]?) * 2 ^ shift
  | .shr i shift => do return (← vals[i]?) / 2 ^ shift

/-- What keeps the numbers of a run canonical: no length passes the digit array, a zero has the
form of the other zeros, and the operations that do not trim give a top digit that is not zero. -/
def Admissible (z : ℕ) (s : List BigUint) : Op → Prop
  | .ofU64 v => v % 2 ^ 64 = 0 → z = 0
  | .ofLimbs limbs => (∀ i < 4, limbs i % 2 ^ 64 = 0) → z = 0
  | .fromBytesLe bytes => ∃ j < 4, bytes (28 + j) % 2 ^ 8 ≠ 0
  | .zero => z = 1
  | .one => True
  | .add i j => ∀ x ∈ s[i]?, ∀ y ∈ s[j]?,
      x.value ≠ 0 → y.value ≠ 0 → max x.length y.length < maxDigits
  | .sub i j => ∀ x ∈ s[i]?, ∀ y ∈ s[j]?, x.value = y.value → y.value ≠ 0 → z = 0
  | .mul i j => ∀ x ∈ s[i]?, ∀ y ∈ s[j]?, (x.value = 0 ∨ y.value = 0 → z = 1) ∧
      (x.value ≠ 0 → y.value ≠ 0 → x.value ≠ 1 → y.value ≠ 1 → x.length + y.length < maxDigits)
  | .shl i shift => ∀ x ∈ s[i]?, shift ≠ 0 →
      x.length + shift / 32 < maxDigits ∧ (x.value = 0 → z = 0)
  | .shr i shift => ∀ x ∈ s[i]?, shift ≠ 0 → (x.length ≤ shift / 32 → z = 1) ∧
      ∀ n, x.length = n + 1 + shift / 32 →
        x.digit (n + shift / 32) / 2 ^ (shift % 32) ≠ 0 ∨ n = 0 ∧ z = 1

instance {op : Op} {z : ℕ} {s : List BigUint} : Decidable (op.Admissible z s) :=
  match op with
  | .ofU64 v => inferInstanceAs (Decidable (v % 2 ^ 64 = 0 → z = 0))
  | .ofLimbs limbs => inferInstanceAs (Decidable ((∀ i < 4, limbs i % 2 ^ 64 = 0) → z = 0))
  | .fromBytesLe bytes => inferInstanceAs (Decidable (∃ j < 4, bytes (28 + j) % 2 ^ 8 ≠ 0))
  | .zero => inferInstanceAs (Decidable (z = 1))
  | .one => .isTrue trivial
  | .add i j => inferInstanceAs (Decidable (∀ x ∈ s[i]?, ∀ y ∈ s[j]?,
      x.value ≠ 0 → y.value ≠ 0 → max x.length y.length < maxDigits))
  | .sub i j => inferInstanceAs (Decidable (∀ x ∈ s[i]?, ∀ y ∈ s[j]?,
      x.value = y.value → y.value ≠ 0 → z = 0))
  | .mul i j => inferInstanceAs (Decidable (∀ x ∈ s[i]?, ∀ y ∈ s[j]?,
      (x.value = 0 ∨ y.value = 0 → z = 1) ∧ (x.value ≠ 0 → y.value ≠ 0 → x.value ≠ 1 →
        y.value ≠ 1 → x.length + y.length < maxDigits)))
  | .shl i shift => inferInstanceAs (Decidable (∀ x ∈ s[i]?, shift ≠ 0 →
      x.length + shift / 32 < maxDigits ∧ (x.value = 0 → z = 0)))
  | .shr i shift => decidable_of_iff (∀ x ∈ s[i]?, shift ≠ 0 → (x.length ≤ shift / 32 → z = 1) ∧
      ∀ n < maxDigits, x.length = n + 1 + shift / 32 →
        x.digit (n + shift / 32) / 2 ^ (shift % 32) ≠ 0 ∨ n = 0 ∧ z = 1)
      (forall₃_congr fun x _ _ => and_congr_right fun _ =>
        ⟨fun h n hn => h n (by have := x.length_le; omega) hn, fun h n _ => h n⟩)

end Op

/-- The numbers of a run, in the order they are produced. -/
def run : List BigUint → List Op → Option (List BigUint)
  | s, [] => some s
  | s, op :: ops => do
    let x ← op.result s
    run (s ++ [x]) ops

/-- The natural numbers of a run. -/
def naturals : List ℕ → List Op → Option (List ℕ)
  | vals, [] => some vals
  | vals, op :: ops => do
    let v ← op.natural vals
    naturals (vals ++ [v]) ops

/-- Every step of a run is admissible in the state before it. -/
def Admissible (z : ℕ) : List BigUint → List Op → Prop
  | _, [] => True
  | s, op :: ops => op.Admissible z s ∧ ∀ x ∈ op.result s, Admissible z (s ++ [x]) ops

instance decidableAdmissible (z : ℕ) :
    (s : List BigUint) → (ops : List Op) → Decidable (Admissible z s ops)
  | _, [] => .isTrue trivial
  | s, op :: ops =>
    have (x : BigUint) : Decidable (Admissible z (s ++ [x]) ops) :=
      decidableAdmissible z (s ++ [x]) ops
    inferInstanceAs (Decidable (op.Admissible z s ∧
      ∀ x ∈ op.result s, Admissible z (s ++ [x]) ops))

/-! ### Bytes -/

lemma foldl_bytes (bytes : ℕ → ℕ) (i : ℕ) {n : ℕ} (hn : n ≤ 8) :
    (List.range n).foldl
        (fun acc j => (acc <<< 8 ||| bytes ((i + 1) * 8 - 1 - j) % 2 ^ 8) % 2 ^ 64) 0 =
      evalSum (fun j => bytes ((i + 1) * 8 - n + j) % 2 ^ 8) n (2 ^ 8) := by
  induction n with
  | zero => rfl
  | succ n ih =>
    have hbyte : bytes ((i + 1) * 8 - 1 - n) % 2 ^ 8 < 2 ^ 8 := Nat.mod_lt _ (by norm_num)
    have hlow : evalSum (fun j => bytes ((i + 1) * 8 - n + j) % 2 ^ 8) n (2 ^ 8) < (2 ^ 8) ^ 7 :=
      (evalSum_lt fun j _ => Nat.mod_lt _ (by norm_num)).trans_le
        (Nat.pow_le_pow_right (by norm_num) (by omega))
    rw [List.range_succ, List.foldl_append, ih (by omega), List.foldl_cons, List.foldl_nil,
      ← Nat.shiftLeft_add_eq_or_of_lt hbyte, Nat.shiftLeft_eq, Nat.mod_eq_of_lt (by omega),
      evalSum_succ', add_zero, show (i + 1) * 8 - 1 - n = (i + 1) * 8 - (n + 1) by omega,
      add_comm, mul_comm (2 ^ 8)]
    congr 2
    apply evalSum_congr
    intro j _
    rw [show (i + 1) * 8 - (n + 1) + (j + 1) = (i + 1) * 8 - n + j by omega]

lemma byteLimb_eq (bytes : ℕ → ℕ) (i : ℕ) :
    byteLimb bytes i % 2 ^ 64 = evalSum (fun j => bytes (8 * i + j) % 2 ^ 8) 8 (2 ^ 8) := by
  have hlt : evalSum (fun j => bytes ((i + 1) * 8 - 8 + j) % 2 ^ 8) 8 (2 ^ 8) < (2 ^ 8) ^ 8 :=
    evalSum_lt fun j _ => Nat.mod_lt _ (by norm_num)
  rw [byteLimb, foldl_bytes bytes i le_rfl, Nat.mod_eq_of_lt (by simpa using hlt)]
  apply evalSum_congr
  intro j _
  rw [show (i + 1) * 8 - 8 + j = 8 * i + j by omega]

lemma fromBytesLe_value (bytes : ℕ → ℕ) :
    (BigUint.fromBytesLe bytes).value = evalSum (fun i => bytes i % 2 ^ 8) 32 (2 ^ 8) := by
  have hblock : ∀ n, evalSum (fun i => byteLimb bytes i % 2 ^ 64) n (2 ^ 64) =
      evalSum (fun i => bytes i % 2 ^ 8) (8 * n) (2 ^ 8) := by
    intro n
    induction n with
    | zero => simp
    | succ n ih =>
      rw [evalSum_succ, ih, byteLimb_eq, Nat.mul_succ, evalSum_add,
        show ((2 ^ 64 : ℕ)) ^ n = (2 ^ 8) ^ (8 * n) by rw [pow_mul]; norm_num]
      ring
  exact (fromBytesLe_spec bytes).1.trans (hblock 4)

/-- The top digit of 32 bytes. -/
lemma fromBytesLe_top {bytes : ℕ → ℕ} {j : ℕ} (hj : j < 4) (hbyte : bytes (28 + j) % 2 ^ 8 ≠ 0) :
    (BigUint.fromBytesLe bytes).digit 7 ≠ 0 := by
  have hdigit : (BigUint.fromBytesLe bytes).digit 7 =
      (byteLimb bytes 3 % 2 ^ 64) >>> 32 % 2 ^ 32 :=
    DigitArray.digit_update_self _ _ _
  have hlow : evalSum (fun j => bytes (8 * 3 + j) % 2 ^ 8) 4 (2 ^ 8) < (2 ^ 8) ^ 4 :=
    evalSum_lt fun j _ => Nat.mod_lt _ (by norm_num)
  have hhigh : evalSum (fun j => bytes (8 * 3 + (4 + j)) % 2 ^ 8) 4 (2 ^ 8) < (2 ^ 8) ^ 4 :=
    evalSum_lt fun j _ => Nat.mod_lt _ (by norm_num)
  have hsplit := evalSum_add (fun j => bytes (8 * 3 + j) % 2 ^ 8) 4 4 (2 ^ 8)
  rw [hdigit, byteLimb_eq, hsplit, Nat.shiftRight_eq_div_pow,
    show ((2 ^ 8 : ℕ)) ^ 4 = 2 ^ 32 by norm_num, Nat.add_mul_div_left _ _ (by norm_num),
    Nat.div_eq_of_lt (by simpa using hlow), zero_add, Nat.mod_eq_of_lt (by simpa using hhigh)]
  intro hzero
  have hterm := Finset.sum_eq_zero_iff.mp hzero j (Finset.mem_range.mpr hj)
  rcases Nat.mul_eq_zero.mp hterm with h | h
  · exact hbyte (by simpa [show 8 * 3 + (4 + j) = 28 + j by ring] using h)
  · have : 0 < (2 ^ 8) ^ j := by positivity
    omega

/-! ### Steps and runs -/

variable {s : List BigUint}

/-- The zeros of a run have one form, and so has everything else. -/
def CanonicalRun (z : ℕ) (s : List BigUint) : Prop := ∀ x ∈ s, x.Canonical z

lemma canonical_one (z : ℕ) : one.Canonical z :=
  trimmed_one.canonical fun h => absurd (value_one.symm.trans h) one_ne_zero

/-- A number that is one has the form that `is_one` recognises. -/
lemma Canonical.isOne_iff_value (hx : x.Canonical z) : x.isOne = true ↔ x.value = 1 := by
  constructor
  · exact value_of_isOne
  · intro hone
    rw [isOne_iff]
    cases hn : x.length with
    | zero =>
      rw [value, hn, evalSum_zero] at hone
      cases hone
    | succ n =>
      have hle : (2 ^ 32) ^ n ≤ x.value := by
        rw [value, hn]
        exact le_evalSum (hx.top_ne_zero n hn (by omega))
      have hn0 : n = 0 := by
        by_contra hne
        have := Nat.one_lt_pow hne (by norm_num : 1 < 2 ^ 32)
        omega
      subst hn0
      rw [value, hn, evalSum_succ, evalSum_zero] at hone
      exact ⟨rfl, by simpa using hone⟩

lemma Canonical.shr (hx : x.Canonical z) {shift : ℕ} (hshift : shift ≠ 0)
    (hlen : x.length ≤ shift / 32 → z = 1)
    (htop : ∀ n, x.length = n + 1 + shift / 32 →
      x.digit (n + shift / 32) / 2 ^ (shift % 32) ≠ 0 ∨ n = 0 ∧ z = 1) :
    (x.shr shift).Canonical z := by
  have hclean := hx.clean.shr shift
  by_cases hle : x.length ≤ shift / 32
  · have hzero : x.shr shift = zero := by rw [BigUint.shr, if_neg hshift, if_pos hle]
    rw [hzero, hlen hle]
    exact canonical_zero
  · obtain ⟨n, hn⟩ : ∃ n, x.length = n + 1 + shift / 32 :=
      ⟨x.length - shift / 32 - 1, by omega⟩
    obtain ⟨hlength, hdigit⟩ := digit_shr_top hshift hn
    have hzero : (x.shr shift).digit n = 0 → n = 0 ∧ z = 1 := by
      intro h
      rw [hdigit] at h
      exact (htop n hn).resolve_left (not_not.mpr h)
    refine ⟨hclean, ?_, ?_⟩
    · intro m hm hne
      obtain rfl : m = n := by omega
      intro h
      obtain ⟨rfl, -⟩ := hzero h
      exact hne (by rw [value, hlength, evalSum_succ, evalSum_zero, h]; rfl)
    · intro h
      have hdigit0 : (x.shr shift).digit n = 0 := by
        by_contra hne
        have hle := le_evalSum (b := 2 ^ 32) hne
        have hpos : 0 < ((2 ^ 32 : ℕ)) ^ n := by positivity
        rw [value, hlength] at h
        omega
      obtain ⟨rfl, rfl⟩ := hzero hdigit0
      exact ⟨hlength, le_rfl⟩

/-- What a place of the run holds. -/
lemma exists_of_getElem? {i v : ℕ} (h : (s.map value)[i]? = some v) :
    ∃ x, s[i]? = some x ∧ x ∈ s ∧ x.value = v := by
  rw [List.getElem?_map, Option.map_eq_some_iff] at h
  obtain ⟨x, hx, rfl⟩ := h
  exact ⟨x, hx, List.mem_of_getElem? hx, rfl⟩

/-- The outcome of a step: it produces the number `v`, in canonical form. -/
def Op.Produces (z : ℕ) (s : List BigUint) (op : Op) (v : ℕ) : Prop :=
  ∃ x, op.result s = some x ∧ x.value = v ∧ x.Canonical z

lemma Op.ofU64_produces {w : ℕ} (hadm : w % 2 ^ 64 = 0 → z = 0) :
    (Op.ofU64 w).Produces z s (w % 2 ^ 64) := by
  obtain ⟨r, hr, hvalue, htrim⟩ := ofU64_spec w
  exact ⟨r, hr, hvalue, htrim.canonical fun h => hadm (hvalue.symm.trans h)⟩

lemma Op.ofLimbs_produces {limbs : ℕ → ℕ} (hadm : (∀ i < 4, limbs i % 2 ^ 64 = 0) → z = 0) :
    (Op.ofLimbs limbs).Produces z s (evalSum (fun i => limbs i % 2 ^ 64) 4 (2 ^ 64)) := by
  obtain ⟨r, hr, hvalue, htrim⟩ := ofLimbs_spec limbs
  refine ⟨r, hr, hvalue, htrim.canonical fun h => hadm ?_⟩
  intro i hi
  have hsum := hvalue.symm.trans h
  have hterm := Finset.sum_eq_zero_iff.mp hsum i (Finset.mem_range.mpr hi)
  exact (Nat.mul_eq_zero.mp hterm).resolve_right (by positivity)

lemma length_fromBytesLe (bytes : ℕ → ℕ) : (BigUint.fromBytesLe bytes).length = 8 := rfl

lemma Op.fromBytesLe_produces {bytes : ℕ → ℕ} (hadm : ∃ j < 4, bytes (28 + j) % 2 ^ 8 ≠ 0) :
    (Op.fromBytesLe bytes).Produces z s (evalSum (fun i => bytes i % 2 ^ 8) 32 (2 ^ 8)) := by
  obtain ⟨j, hj, hbyte⟩ := hadm
  have htop := fromBytesLe_top hj hbyte
  have hlength := length_fromBytesLe bytes
  refine ⟨BigUint.fromBytesLe bytes, rfl, fromBytesLe_value bytes, ?_⟩
  have hclean := (fromBytesLe_spec bytes).2
  generalize BigUint.fromBytesLe bytes = x at htop hlength hclean
  have htrim : x.Trimmed := by
    refine ⟨hclean, ?_⟩
    intro n hn
    obtain rfl : n = 7 := by omega
    exact htop
  refine htrim.canonical fun hzero => ?_
  have hle : (2 ^ 32) ^ 7 ≤ x.value := by
    rw [value, hlength]
    exact le_evalSum htop
  omega

lemma Op.zero_produces (hadm : z = 1) : Op.zero.Produces z s 0 := by
  rw [hadm]
  exact ⟨BigUint.zero, rfl, value_zero, canonical_zero⟩

lemma Op.one_produces : Op.one.Produces z s 1 :=
  ⟨BigUint.one, rfl, value_one, canonical_one z⟩

lemma Op.add_produces {i j : ℕ} (hx : s[i]? = some x) (hy : s[j]? = some y)
    (hcx : x.Canonical z) (hcy : y.Canonical z) (hadm : (Op.add i j).Admissible z s) :
    (Op.add i j).Produces z s (x.value + y.value) := by
  have hfit : x.isZero ∨ y.isZero ∨ max x.length y.length < maxDigits := by
    rw [hcx.isZero_iff_value, hcy.isZero_iff_value]
    by_cases hx0 : x.value = 0
    · exact .inl hx0
    · by_cases hy0 : y.value = 0
      · exact .inr (.inl hy0)
      · exact .inr (.inr (hadm x hx y hy hx0 hy0))
  obtain ⟨r, hr, hvalue, hform⟩ := add_spec hcx.clean hcy.clean hfit
  refine ⟨r, by simp [result, hx, hy, hr], hvalue, ?_⟩
  rcases hform with ⟨-, rfl⟩ | ⟨-, rfl⟩ | ⟨hx0, -, htrim⟩
  · exact hcy
  · exact hcx
  · refine htrim.canonical fun h => ?_
    have : x.isZero = true := hcx.isZero_iff_value.mpr (by omega)
    rw [hx0] at this
    cases this

lemma Op.sub_produces {i j : ℕ} (hx : s[i]? = some x) (hy : s[j]? = some y)
    (hcx : x.Canonical z) (hcy : y.Canonical z) (hle : y.value ≤ x.value)
    (hadm : (Op.sub i j).Admissible z s) : (Op.sub i j).Produces z s (x.value - y.value) := by
  obtain ⟨r, hr, hvalue, hform⟩ := sub_spec hcy.clean hle
  refine ⟨r, by simp [result, hx, hy, hr], hvalue, ?_⟩
  rcases hform with ⟨-, rfl⟩ | ⟨hy0, htrim⟩
  · exact hcx
  · refine htrim.canonical fun h => hadm x hx y hy (by omega) ?_
    intro hzero
    rw [hcy.isZero_iff_value.mpr hzero] at hy0
    cases hy0

lemma Op.mul_produces {i j : ℕ} (hx : s[i]? = some x) (hy : s[j]? = some y)
    (hcx : x.Canonical z) (hcy : y.Canonical z) (hadm : (Op.mul i j).Admissible z s) :
    (Op.mul i j).Produces z s (x.value * y.value) := by
  obtain ⟨hz, hfit⟩ := hadm x hx y hy
  obtain ⟨r, hr, hvalue, hform⟩ := mul_spec (x := x) hcy.clean (by
    rw [hcx.isZero_iff_value, hcy.isZero_iff_value, hcx.isOne_iff_value, hcy.isOne_iff_value]
    by_contra hnone
    simp only [not_or] at hnone
    exact hnone.2.2.2.2 (hfit hnone.1 hnone.2.1 hnone.2.2.1 hnone.2.2.2.1))
  refine ⟨r, by simp [result, hx, hy, hr], hvalue, ?_⟩
  rcases hform with ⟨hzero, rfl⟩ | ⟨hzero, hform⟩
  · rw [Bool.or_eq_true, hcx.isZero_iff_value, hcy.isZero_iff_value] at hzero
    rw [hz hzero]
    exact canonical_zero
  · rcases hform with rfl | rfl | htrim
    · exact hcx
    · exact hcy
    · refine htrim.canonical fun h => ?_
      rw [hvalue, Nat.mul_eq_zero, ← hcx.isZero_iff_value, ← hcy.isZero_iff_value,
        ← Bool.or_eq_true, hzero] at h
      cases h

lemma Op.shl_produces {i shift : ℕ} (hx : s[i]? = some x) (hcx : x.Canonical z)
    (hadm : (Op.shl i shift).Admissible z s) :
    (Op.shl i shift).Produces z s (x.value * 2 ^ shift) := by
  have hfit : shift = 0 ∨ x.length + shift / 32 < maxDigits := by
    by_cases hshift : shift = 0
    · exact .inl hshift
    · exact .inr (hadm x hx hshift).1
  obtain ⟨r, hr, hvalue, hform⟩ := shl_spec hfit
  refine ⟨r, by simp [result, hx, hr], hvalue, ?_⟩
  rcases hform with ⟨-, rfl⟩ | ⟨hshift, htrim⟩
  · exact hcx
  · refine htrim.canonical fun h => (hadm x hx hshift).2 ?_
    rw [hvalue] at h
    exact (Nat.mul_eq_zero.mp h).resolve_right (by positivity)

lemma Op.shr_produces {i shift : ℕ} (hx : s[i]? = some x) (hcx : x.Canonical z)
    (hadm : (Op.shr i shift).Admissible z s) :
    (Op.shr i shift).Produces z s (x.value / 2 ^ shift) := by
  refine ⟨x.shr shift, by simp [result, hx], x.value_shr shift, ?_⟩
  by_cases hshift : shift = 0
  · rw [BigUint.shr, if_pos hshift]
    exact hcx
  · obtain ⟨hlen, htop⟩ := hadm x hx hshift
    exact hcx.shr hshift hlen htop

/-- An admissible step produces the natural number, in canonical form. -/
lemma Op.result_spec {op : Op} {v : ℕ} (hs : CanonicalRun z s) (hadm : op.Admissible z s)
    (hnat : op.natural (s.map value) = some v) : op.Produces z s v := by
  cases op with
  | ofU64 w =>
    obtain rfl := Option.some.inj hnat
    exact ofU64_produces hadm
  | ofLimbs limbs =>
    obtain rfl := Option.some.inj hnat
    exact ofLimbs_produces hadm
  | fromBytesLe bytes =>
    obtain rfl := Option.some.inj hnat
    exact fromBytesLe_produces hadm
  | zero =>
    obtain rfl := Option.some.inj hnat
    exact zero_produces hadm
  | one =>
    obtain rfl := Option.some.inj hnat
    exact one_produces
  | add i j =>
    simp only [natural, Option.bind_eq_bind, Option.pure_def, Option.bind_eq_some_iff,
      Option.some.injEq] at hnat
    obtain ⟨a, ha, b, hb, rfl⟩ := hnat
    obtain ⟨x, hx, hxs, rfl⟩ := exists_of_getElem? ha
    obtain ⟨y, hy, hys, rfl⟩ := exists_of_getElem? hb
    exact add_produces hx hy (hs x hxs) (hs y hys) hadm
  | sub i j =>
    simp only [natural, Option.bind_eq_bind, Option.pure_def, Option.bind_eq_some_iff] at hnat
    obtain ⟨a, ha, b, hb, hif⟩ := hnat
    split_ifs at hif with hle
    obtain rfl := Option.some.inj hif
    obtain ⟨x, hx, hxs, rfl⟩ := exists_of_getElem? ha
    obtain ⟨y, hy, hys, rfl⟩ := exists_of_getElem? hb
    exact sub_produces hx hy (hs x hxs) (hs y hys) hle hadm
  | mul i j =>
    simp only [natural, Option.bind_eq_bind, Option.pure_def, Option.bind_eq_some_iff,
      Option.some.injEq] at hnat
    obtain ⟨a, ha, b, hb, rfl⟩ := hnat
    obtain ⟨x, hx, hxs, rfl⟩ := exists_of_getElem? ha
    obtain ⟨y, hy, hys, rfl⟩ := exists_of_getElem? hb
    exact mul_produces hx hy (hs x hxs) (hs y hys) hadm
  | shl i shift =>
    simp only [natural, Option.bind_eq_bind, Option.pure_def, Option.bind_eq_some_iff,
      Option.some.injEq] at hnat
    obtain ⟨a, ha, rfl⟩ := hnat
    obtain ⟨x, hx, hxs, rfl⟩ := exists_of_getElem? ha
    exact shl_produces hx (hs x hxs) hadm
  | shr i shift =>
    simp only [natural, Option.bind_eq_bind, Option.pure_def, Option.bind_eq_some_iff,
      Option.some.injEq] at hnat
    obtain ⟨a, ha, rfl⟩ := hnat
    obtain ⟨x, hx, hxs, rfl⟩ := exists_of_getElem? ha
    exact shr_produces hx (hs x hxs) hadm

/-- The numbers of a run whose steps are admissible. -/
lemma run_canonical {ops : List Op} {vals : List ℕ} (hs : CanonicalRun z s)
    (hadm : Admissible z s ops) (hnat : naturals (s.map value) ops = some vals) :
    ∃ s', run s ops = some s' ∧ s'.map value = vals ∧ CanonicalRun z s' := by
  induction ops generalizing s with
  | nil => exact ⟨s, rfl, Option.some.inj hnat, hs⟩
  | cons op ops ih =>
    simp only [naturals, Option.bind_eq_bind, Option.bind_eq_some_iff] at hnat
    obtain ⟨v, hv, hrest⟩ := hnat
    obtain ⟨x, hx, rfl, hcx⟩ := Op.result_spec hs hadm.1 hv
    obtain ⟨s', hrun, hvals, hcs'⟩ := ih (s := s ++ [x])
      (by
        intro y hy
        rcases List.mem_append.mp hy with hy | hy
        · exact hs y hy
        · rwa [List.mem_singleton.mp hy])
      (hadm.2 x hx) (by simpa using hrest)
    exact ⟨s', by simp only [run, hx, Option.bind_eq_bind, Option.bind_some, hrun], hvals, hcs'⟩

/-- A run whose steps are admissible produces the natural numbers, and the comparisons of any two
of them agree with the order and equality of the natural numbers. -/
theorem run_denotes {ops : List Op} {vals : List ℕ} (hadm : Admissible z [] ops)
    (hnat : naturals [] ops = some vals) :
    ∃ s, run [] ops = some s ∧ s.map value = vals ∧ ∀ x ∈ s, ∀ y ∈ s, Compares x y := by
  obtain ⟨s, hrun, hvals, hs⟩ := run_canonical (s := []) (by simp [CanonicalRun]) hadm hnat
  exact ⟨s, hrun, hvals, fun x hx y hy => (hs x hx).compares (hs y hy)⟩

/-- A run that compares five with seven, and multiplies and subtracts them. -/
theorem run_denotes_five_seven :
    ∃ s, run [] [.ofU64 5, .ofU64 7, .mul 0 1, .sub 2 1, .shl 3 32] = some s ∧
      s.map value = [5, 7, 35, 28, 28 * 2 ^ 32] ∧ ∀ x ∈ s, ∀ y ∈ s, Compares x y :=
  run_denotes (z := 0) (by decide) (by decide)

/-- The difference of a number with itself is a zero of no digits, and differs from `zero`. -/
theorem run_denotes_not_all :
    ¬ ∀ (ops : List Op) (vals : List ℕ), naturals [] ops = some vals →
      (∀ v ∈ vals, v < (2 ^ 32) ^ maxDigits) →
      ∃ s, run [] ops = some s ∧ s.map value = vals ∧ ∀ x ∈ s, ∀ y ∈ s, Compares x y := by
  intro hall
  obtain ⟨s, hrun, -, hcompares⟩ :=
    hall [.ofU64 5, .sub 0 0, .zero] [5, 0, 0] (by decide) (by decide)
  have hzeros : ∃ s ∈ run [] [.ofU64 5, .sub 0 0, .zero], ∃ x ∈ s, ∃ y ∈ s,
      x.eq y ≠ decide (x.value = y.value) := by decide
  obtain ⟨s', hrun', x, hx, y, hy, hne⟩ := hzeros
  obtain rfl : s = s' := Option.some.inj (hrun.symm.trans hrun')
  exact hne (hcompares x hx y hy).eq

end BigUint

end MegaZK
