import MegaZK.Fri.CommittedTrees
import MegaZK.Fri.ExtensionNtt
import MegaZK.Lib.TimeDecimation
import MegaZK.Merkle.Proofs

/-! # The transform of the host

`fft_with_options`: the values of a polynomial at the powers of a root of unity, by rounds of
butterflies. The first rounds are skipped where the caller knows that the last coefficients are
zero. -/

namespace MegaZK

open Butterfly Horner

section Source

variable {F : Type} [CommRing F]

/-- `fft_root_table`, where `root` is `primitive_root_of_unity`. -/
def fftRootTable (root : ℕ → F) (n : ℕ) : Option (List (List F)) := do
  let lgN ← log2Strict n
  let bases := List.iterate (· ^ 2) (root lgN) (max lgN 1)
  (List.range' 1 lgN).mapM fun lgM => do
    let halfM := 1 <<< (lgM - 1)
    let base ← bases[lgN - lgM]?
    return (List.range (max halfM 2)).map fun j => base ^ j

/-- The loop before the rounds: `values[i] = values[i & mask]`, where the mask clears `r` bits. -/
def copyNonzero (r n : ℕ) (values : ℕ → F) : ℕ → F :=
  (List.range n).foldl (fun v i => Function.update v i (v (i >>> r <<< r))) values

/-- A round of `fft_classic_simd` on vectors of one element. -/
def fftRound (rootTable : List (List F)) (n : ℕ) (values : ℕ → F) (lgHalfM : ℕ) :
    Option (ℕ → F) := do
  let halfM := 2 ^ lgHalfM
  let omegaTable ← rootTable[lgHalfM]?
  guard (halfM ≤ omegaTable.length)
  return (stagePairs (n / (2 * halfM)) halfM).foldl (butterfly halfM (omegaTable.getD · 0)) values

/-- `fft_classic`. -/
def fftClassic (values : List F) (r : ℕ) (rootTable : List (List F)) : Option (List F) := do
  let values ← reverseIndexBitsInPlace values
  let n := values.length
  let lgN ← log2Strict n
  guard (rootTable.length = lgN)
  let values := if 0 < r then copyNonzero r n (values.getD · 0) else (values.getD · 0)
  let values ← (List.range' r (lgN - r)).foldlM (fftRound rootTable n) values
  return (List.range n).map values

/-- `fft_with_options`. -/
def fftWithOptions (root : ℕ → F) (coeffs : List F) (zeroFactor : Option ℕ)
    (rootTable : Option (List (List F))) : Option (List F) := do
  let rootTable ← match rootTable with
    | some rootTable => some rootTable
    | none => fftRootTable root coeffs.length
  fftClassic coeffs (zeroFactor.getD 0) rootTable

end Source

variable {F : Type} [CommRing F] {root : ℕ → F} {c : ℕ → F} {r s lgN : ℕ}

/-! ### The table of roots -/

/-- The rows that the rounds read. -/
structure IsRootTable (ω : F) (lgN : ℕ) (rootTable : List (List F)) : Prop where
  length : rootTable.length = lgN
  row : ∀ lgHalfM < lgN, ∃ row, rootTable[lgHalfM]? = some row ∧ 2 ^ lgHalfM ≤ row.length ∧
    ∀ j < 2 ^ lgHalfM, row.getD j 0 = ω ^ (2 ^ (lgN - (lgHalfM + 1)) * j)

lemma getElem?_iterate_sq (g : F) {i n : ℕ} (hi : i < n) :
    (List.iterate (· ^ 2) g n)[i]? = some (g ^ 2 ^ i) := by
  have hsq : ∀ i, (fun x : F => x ^ 2)^[i] g = g ^ 2 ^ i := by
    intro i
    induction i with
    | zero => simp
    | succ i ih => rw [Function.iterate_succ_apply', ih, ← pow_mul, ← pow_succ]
  rw [List.getElem?_eq_getElem (by simpa using hi), List.getElem_iterate, hsq]

lemma exists_fftRootTable (root : ℕ → F) (lgN : ℕ) :
    ∃ rootTable, fftRootTable root (2 ^ lgN) = some rootTable ∧
      IsRootTable (root lgN) lgN rootTable := by
  have htable : fftRootTable root (2 ^ lgN) = some ((List.range' 1 lgN).map fun lgM =>
      (List.range (max (1 <<< (lgM - 1)) 2)).map fun j => (root lgN ^ 2 ^ (lgN - lgM)) ^ j) := by
    rw [fftRootTable, log2Strict_two_pow, Option.bind_eq_bind, Option.bind_some]
    apply Fold.mapM_eq_some_map
    intro lgM hlgM
    have hlgM := List.mem_range'_1.mp hlgM
    rw [getElem?_iterate_sq _ (by omega)]
    rfl
  refine ⟨_, htable, by simp, fun lgHalfM hlt => ?_⟩
  refine ⟨(List.range (max (2 ^ lgHalfM) 2)).map fun j =>
    (root lgN ^ 2 ^ (lgN - (lgHalfM + 1))) ^ j, ?_, by simp, fun j hj => ?_⟩
  · rw [List.getElem?_map, List.getElem?_range' hlt]
    simp [Nat.one_shiftLeft, Nat.add_comm]
  · have hj' : j < max (2 ^ lgHalfM) 2 := lt_max_of_lt_left hj
    simp only [List.getD_eq_getElem?_getD, List.getElem?_map, List.getElem?_range hj',
      Option.map_some, Option.getD_some, pow_mul]

/-! ### The rounds -/

/-- The values after `s` rounds. -/
def AfterRounds (ω : F) (c : ℕ → F) (lgN s : ℕ) (values : ℕ → F) : Prop :=
  ∀ b < 2 ^ (lgN - s), ∀ t < 2 ^ s,
    values (b * 2 ^ s + t) = block ω reverseBits (lgN - s) s c b t

/-- The two blocks that a round puts together. -/
lemma AfterRounds.halves {ω : F} {L : ℕ} {values : ℕ → F}
    (h : AfterRounds ω c (s + L + 1) s values) {b t : ℕ} (hb : b < 2 ^ L) (ht : t < 2 ^ s) :
    values (b * (2 * 2 ^ s) + t) = block ω reverseBits (L + 1) s c (2 * b) t ∧
      values (b * (2 * 2 ^ s) + 2 ^ s + t) = block ω reverseBits (L + 1) s c (2 * b + 1) t := by
  have hL : s + L + 1 - s = L + 1 := by omega
  have hlow : b * (2 * 2 ^ s) + t = 2 * b * 2 ^ s + t := by ring
  have hhigh : b * (2 * 2 ^ s) + 2 ^ s + t = (2 * b + 1) * 2 ^ s + t := by ring
  rw [AfterRounds, hL, pow_succ'] at h
  constructor
  · rw [hlow, h (2 * b) (by omega) t ht]
  · rw [hhigh, h (2 * b + 1) (by omega) t ht]

lemma AfterRounds.fftRound {ω : F} (hω : ω ^ 2 ^ (lgN - 1) = -1) {rootTable : List (List F)}
    (htable : IsRootTable ω lgN rootTable) {values : ℕ → F} (h : AfterRounds ω c lgN s values)
    (hs : s < lgN) :
    ∃ values', MegaZK.fftRound rootTable (2 ^ lgN) values s = some values' ∧
      AfterRounds ω c lgN (s + 1) values' := by
  obtain ⟨row, hrow, hlen, hroots⟩ := htable.row s hs
  obtain ⟨L, rfl⟩ := Nat.exists_eq_add_of_lt hs
  have hblocks : 2 ^ (s + L + 1) / (2 * 2 ^ s) = 2 ^ L := by
    have hsplit : 2 ^ (s + L + 1) = 2 ^ L * (2 * 2 ^ s) := by ring
    rw [hsplit, Nat.mul_div_cancel _ (by positivity)]
  have hL : s + L + 1 - (s + 1) = L := by omega
  have hhalf : s + L + 1 - 1 = L + s := by omega
  rw [hL] at hroots
  rw [hhalf] at hω
  refine ⟨(stagePairs (2 ^ (s + L + 1) / (2 * 2 ^ s)) (2 ^ s)).foldl
    (butterfly (2 ^ s) (row.getD · 0)) values, ?_, ?_⟩
  · rw [MegaZK.fftRound, hrow]
    simp only [Option.bind_eq_bind, Option.bind_some, guard, if_pos hlen, Option.pure_def]
  · intro b hb t ht
    rw [hL] at hb ⊢
    rw [hblocks]
    rw [pow_succ'] at ht ⊢
    rcases Nat.lt_or_ge t (2 ^ s) with hlow | hhigh
    · obtain ⟨hleft, hright⟩ := h.halves hb hlow
      rw [(foldl_stagePairs values hb hlow).1, hleft, hright, hroots t hlow,
        block_succ numbering_reverseBits hb]
    · obtain ⟨t, rfl⟩ := Nat.exists_eq_add_of_le' hhigh
      have hlow : t < 2 ^ s := by omega
      obtain ⟨hleft, hright⟩ := h.halves hb hlow
      have hindex : b * (2 * 2 ^ s) + (t + 2 ^ s) = b * (2 * 2 ^ s) + 2 ^ s + t := by ring
      rw [hindex, (foldl_stagePairs values hb hlow).2, hleft, hright, hroots t hlow,
        block_succ_add numbering_reverseBits hω hb]

/-- All rounds that are left. -/
lemma AfterRounds.foldlM {ω : F} (hω : s < lgN → ω ^ 2 ^ (lgN - 1) = -1)
    {rootTable : List (List F)} (htable : IsRootTable ω lgN rootTable) {values : ℕ → F}
    (h : AfterRounds ω c lgN s values) (hs : s ≤ lgN) :
    ∃ values', (List.range' s (lgN - s)).foldlM (MegaZK.fftRound rootTable (2 ^ lgN)) values =
        some values' ∧ AfterRounds ω c lgN lgN values' := by
  induction hk : lgN - s generalizing s values with
  | zero =>
    obtain rfl : s = lgN := by omega
    exact ⟨values, rfl, h⟩
  | succ k ih =>
    obtain ⟨next, hnext, hafter⟩ := h.fftRound (hω (by omega)) htable (by omega)
    obtain ⟨values', hvalues', hdone⟩ := ih (fun _ => hω (by omega)) hafter (by omega) (by omega)
    refine ⟨values', ?_, hdone⟩
    rw [List.range'_succ, List.foldlM_cons, hnext]
    exact hvalues'

lemma AfterRounds.eq_evalSum {ω : F} {values : ℕ → F} (h : AfterRounds ω c lgN lgN values) {i : ℕ}
    (hi : i < 2 ^ lgN) : values i = evalSum c (2 ^ lgN) (ω ^ i) := by
  have hvalue := h 0 (Nat.two_pow_pos _) i hi
  have hzero : reverseBits 0 0 = 0 := rfl
  rw [Nat.zero_mul, Nat.zero_add, Nat.sub_self] at hvalue
  rw [hvalue, block, evalSum]
  refine Finset.sum_congr rfl fun k _ => ?_
  rw [hzero, pow_zero, Nat.mul_one, Nat.add_zero, Nat.one_mul, pow_mul]

/-! ### The rounds that are skipped -/

omit [CommRing F] in
lemma copyNonzero_eq (r n : ℕ) (values : ℕ → F) {i : ℕ} (hi : i < n) :
    copyNonzero r n values i = values (i >>> r <<< r) := by
  have hle : ∀ i, i >>> r <<< r ≤ i := by
    intro i
    rw [Nat.shiftRight_eq_div_pow, Nat.shiftLeft_eq]
    exact Nat.div_mul_le_self i _
  have hidem : ∀ i, i >>> r <<< r >>> r <<< r = i >>> r <<< r := by
    intro i
    rw [Nat.shiftLeft_shiftRight]
  have hloop : ∀ n i, copyNonzero r n values i =
      if i < n then values (i >>> r <<< r) else values i := by
    intro n
    induction n with
    | zero => simp [copyNonzero]
    | succ n ih =>
      intro i
      rw [copyNonzero, List.range_succ, List.foldl_append, List.foldl_cons, List.foldl_nil]
      change Function.update (copyNonzero r n values) n (copyNonzero r n values _) i = _
      rw [Function.update_apply]
      split_ifs with heq hlt hlt
      · subst heq
        rw [ih, hidem, ite_self]
      · omega
      · rw [ih, if_pos (by omega)]
      · rw [ih, if_neg (by omega)]
  rw [hloop, if_pos hi]

/-- With zeros at the end the first rounds only copy. -/
lemma afterRounds_copied {ω : F} {values : ℕ → F} (hr : r ≤ lgN)
    (hvalues : ∀ i < 2 ^ lgN, values i = c (reverseBits i lgN))
    (hzero : ∀ k, 2 ^ (lgN - r) ≤ k → c k = 0) :
    AfterRounds ω c lgN r (if 0 < r then copyNonzero r (2 ^ lgN) values else values) := by
  have hcopied : ∀ i < 2 ^ lgN,
      (if 0 < r then copyNonzero r (2 ^ lgN) values else values) i =
        values (i >>> r <<< r) := by
    intro i hi
    split_ifs with hpos
    · exact copyNonzero_eq r _ values hi
    · obtain rfl : r = 0 := by omega
      rfl
  intro b hb t ht
  obtain ⟨L, rfl⟩ := Nat.exists_eq_add_of_le' hr
  rw [Nat.add_sub_cancel] at hb hzero ⊢
  have hlt : b * 2 ^ r + t < 2 ^ (L + r) := by
    calc b * 2 ^ r + t < (b + 1) * 2 ^ r := by
          rw [Nat.succ_mul]
          omega
      _ ≤ 2 ^ L * 2 ^ r := Nat.mul_le_mul_right _ hb
      _ = 2 ^ (L + r) := (pow_add 2 L r).symm
  have hmask : (b * 2 ^ r + t) >>> r <<< r = b * 2 ^ r + 0 := by
    rw [Nat.shiftRight_eq_div_pow, Nat.shiftLeft_eq, Nat.add_zero, Nat.mul_comm b,
      Nat.mul_add_div (Nat.two_pow_pos r), Nat.div_eq_of_lt ht, Nat.add_zero, Nat.mul_comm]
  have hrev : reverseBits (b * 2 ^ r + 0) (L + r) = reverseBits b L := by
    have hnone : reverseBits 0 r = 0 := by
      apply Nat.eq_of_testBit_eq
      intro i
      simp [testBit_reverseBits]
    rw [reverseBits_mul_add (Nat.two_pow_pos r), hnone, Nat.zero_mul, Nat.zero_add]
  rw [hcopied _ hlt, hmask, hvalues _ (by omega), hrev, block, Finset.sum_eq_single 0]
  · simp
  · intro k _ hk
    rw [hzero, zero_mul]
    exact (Nat.le_mul_of_pos_left _ (Nat.pos_of_ne_zero hk)).trans (Nat.le_add_right _ _)
  · intro h
    exact absurd (Finset.mem_range.mpr (Nat.two_pow_pos r)) h

/-! ### The transform -/

/-- `fft_classic` yields the values at the powers of the root. -/
lemma fftClassic_eq {ω : F} (hω : 1 ≤ lgN → ω ^ 2 ^ (lgN - 1) = -1) {rootTable : List (List F)}
    (htable : IsRootTable ω lgN rootTable) {coeffs : List F} (hlen : coeffs.length = 2 ^ lgN)
    (hr : r ≤ lgN) (hzero : ∀ k, 2 ^ (lgN - r) ≤ k → coeffs.getD k 0 = 0) :
    fftClassic coeffs r rootTable = some ((List.range (2 ^ lgN)).map fun i =>
      evalSum (coeffs.getD · 0) (2 ^ lgN) (ω ^ i)) := by
  have hreverse : reverseIndexBitsInPlace coeffs =
      some ((List.range (2 ^ lgN)).map fun i => coeffs.getD (reverseBits i lgN) 0) := by
    rw [← reverseIndexBitsInPlace_map_range (coeffs.getD · 0) lgN, ← hlen]
    congr 1
    exact List.ext_getElem (by simp) fun i hi _ => by simp [hi]
  set reversed := (List.range (2 ^ lgN)).map fun i => coeffs.getD (reverseBits i lgN) 0
  have hlength : reversed.length = 2 ^ lgN := by simp [reversed]
  have hgetD : ∀ i < 2 ^ lgN, reversed.getD i 0 = coeffs.getD (reverseBits i lgN) 0 := by
    intro i hi
    simp [reversed, hi]
  have hstart : AfterRounds ω (coeffs.getD · 0) lgN r
      (if 0 < r then copyNonzero r (2 ^ lgN) (reversed.getD · 0) else (reversed.getD · 0)) :=
    afterRounds_copied hr hgetD hzero
  obtain ⟨values, hvalues, hdone⟩ := hstart.foldlM (fun h => hω (by omega)) htable hr
  rw [fftClassic, hreverse]
  simp only [Option.bind_eq_bind, Option.bind_some, hlength, log2Strict_two_pow, guard,
    if_pos htable.length, Option.pure_def, hvalues, Option.some.injEq]
  apply List.map_congr_left
  intro i hi
  exact hdone.eq_evalSum (List.mem_range.mp hi)

/-- The transform by rounds is the transform of the commitments, for the zeros that `zero_factor`
promises. -/
theorem fftWithOptions_eq_fft {coeffs : List QuadraticExtension} {zeroFactor : Option ℕ}
    (hlen : coeffs.length ≤ 2 ^ 33) (hr : 2 ^ zeroFactor.getD 0 ≤ coeffs.length)
    (hzero : ∀ k, coeffs.length / 2 ^ zeroFactor.getD 0 ≤ k → coeffs.getD k 0 = 0) :
    fftWithOptions QuadraticExtension.primitiveRootOfUnity coeffs zeroFactor none =
      fft coeffs := by
  cases hlog : log2Strict coeffs.length with
  | none => simp [fftWithOptions, fftRootTable, fft, hlog]
  | some lgN =>
    have hsize := log2Strict_eq_some hlog
    have hle : lgN ≤ 33 := (Nat.pow_le_pow_iff_right (by norm_num)).mp (hsize ▸ hlen)
    have hr' : zeroFactor.getD 0 ≤ lgN :=
      (Nat.pow_le_pow_iff_right (by norm_num)).mp (hsize ▸ hr)
    obtain ⟨rootTable, hrun, htable⟩ :=
      exists_fftRootTable QuadraticExtension.primitiveRootOfUnity lgN
    have hzero' : ∀ k, 2 ^ (lgN - zeroFactor.getD 0) ≤ k → coeffs.getD k 0 = 0 := by
      rw [← Nat.pow_div hr' (by norm_num), ← hsize]
      exact hzero
    rw [fftWithOptions, hsize, hrun]
    simp only [Option.bind_eq_bind, Option.bind_some]
    rw [fftClassic_eq (fun h => QuadraticExtension.primitiveRootOfUnity_pow_half h hle) htable
      hsize hr' hzero', fft, hlog, hsize]
    rfl

theorem fftWithOptions_eq_fft_four :
    fftWithOptions QuadraticExtension.primitiveRootOfUnity [1, 1, 0, 0] (some 1) none =
      fft [1, 1, 0, 0] := by
  apply fftWithOptions_eq_fft (by norm_num) (by norm_num)
  intro k hk
  match k, hk with
  | 2, _ => rfl
  | 3, _ => rfl
  | k + 4, _ => rfl

end MegaZK
