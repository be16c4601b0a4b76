import Mathlib.Algebra.BigOperators.GroupWithZero.Finset
import Mathlib.Algebra.BigOperators.Intervals
import Mathlib.Algebra.Field.Basic
import Mathlib.Algebra.GroupWithZero.Units.Lemmas
import Mathlib.Algebra.Order.Ring.Nat
import Mathlib.Tactic.FieldSimp
import Mathlib.Tactic.Ring
import MegaZK.PartialProducts.Host

/-! # Inverting many elements at once

How `batch_multiplicative_inverse` computes: four running products, one inversion, and the way
back. -/

namespace MegaZK

/-- `try_inverse`, which `inverse` unwraps. -/
def tryInverse {F : Type} [Field F] [DecidableEq F] (x : F) : Option F :=
  if x = 0 then none else some x⁻¹

section TryInverse

variable {F : Type} [Field F] [DecidableEq F]

lemma tryInverse_of_ne_zero {x : F} (hx : x ≠ 0) : tryInverse x = some x⁻¹ := if_neg hx

lemma tryInverse_zero : tryInverse (0 : F) = none := if_pos rfl

end TryInverse

namespace Montgomery

variable {F : Type} [Field F] [DecidableEq F]

/-! ### Source -/

/-- The loop over `x[4..]`: the running product of the chain of an element, kept at its place. -/
def cumulateFrom (x : ℕ → F) : ℕ → ℕ → (ℕ → F) → (ℕ → F) → (ℕ → F) × (ℕ → F)
  | 0, _, cumulProd, buf => (cumulProd, buf)
  | count + 1, i, cumulProd, buf =>
    let product := cumulProd (i % 4) * x i
    cumulateFrom x count (i + 1) (Function.update cumulProd (i % 4) product)
      (Function.update buf i product)

/-- The loop back over the indices from `4 + count` down. -/
def unwindFrom (x : ℕ → F) : ℕ → (ℕ → F) → (ℕ → F) → (ℕ → F) × (ℕ → F)
  | 0, aInv, buf => (aInv, buf)
  | count + 1, aInv, buf =>
    let i := count + 4
    unwindFrom x count (Function.update aInv (i % 4) (aInv (i % 4) * x i))
      (Function.update buf i (buf (i - 4) * aInv (i % 4)))

/-- The general case, on `n` elements. -/
def batchInverseLong (x : ℕ → F) (n : ℕ) : Option (List F) := do
  let (cumulProd, buf) := cumulateFrom x (n - 4) 4 x x
  let c01 := cumulProd 0 * cumulProd 1
  let c23 := cumulProd 2 * cumulProd 3
  let c0123inv ← tryInverse (c01 * c23)
  let c01inv := c0123inv * c23
  let c23inv := c0123inv * c01
  let aInv : ℕ → F := fun r =>
    [c01inv * cumulProd 1, c01inv * cumulProd 0, c23inv * cumulProd 3,
      c23inv * cumulProd 2].getD r 0
  let (aInv, buf) := unwindFrom x (n - 4) aInv buf
  return (List.range n).map fun i => if i < 4 then aInv i else buf i

/-- `batch_multiplicative_inverse`, by Montgomery's trick. -/
def batchMultiplicativeInverse : List F → Option (List F)
  | [] => some []
  | [x0] => do return [← tryInverse x0]
  | [x0, x1] => do
    let x01inv ← tryInverse (x0 * x1)
    return [x01inv * x1, x01inv * x0]
  | [x0, x1, x2] => do
    let x01 := x0 * x1
    let x012inv ← tryInverse (x01 * x2)
    let x01inv := x012inv * x2
    return [x01inv * x1, x01inv * x0, x012inv * x01]
  | x => batchInverseLong (x.getD · 0) x.length

/-! ### The chains -/

/-- The product of the elements of the chain of `i` up to `i`. -/
def chainProd (x : ℕ → F) (i : ℕ) : F := ∏ k ∈ Finset.range (i / 4 + 1), x (i % 4 + 4 * k)

omit [DecidableEq F] in
lemma chainProd_of_lt (x : ℕ → F) {i : ℕ} (hi : i < 4) : chainProd x i = x i := by
  have hdiv : i / 4 = 0 := by omega
  have hmod : i % 4 = i := by omega
  simp [chainProd, hdiv, hmod]

omit [DecidableEq F] in
lemma chainProd_add (x : ℕ → F) (i : ℕ) : chainProd x (i + 4) = chainProd x i * x (i + 4) := by
  have hdiv : (i + 4) / 4 = i / 4 + 1 := by omega
  have hmod : (i + 4) % 4 = i % 4 := by omega
  have hlast : i % 4 + 4 * (i / 4 + 1) = i + 4 := by omega
  rw [chainProd, hdiv, hmod, Finset.prod_range_succ, hlast]
  rfl

/-- The last index below `n` of the chain `r`. -/
def lastOf (n r : ℕ) : ℕ := r + 4 * ((n - 1 - r) / 4)

section Long

variable (x : ℕ → F)

omit [DecidableEq F]

/-- Up to `n` every place holds the product of its chain. -/
lemma cumulateFrom_spec (count i : ℕ) (hi : 4 ≤ i) {cumulProd buf : ℕ → F}
    (hcumul : ∀ r < 4, cumulProd r = chainProd x (lastOf i r))
    (hbuf : ∀ k < i, buf k = chainProd x k) :
    (∀ r < 4, (cumulateFrom x count i cumulProd buf).1 r = chainProd x (lastOf (i + count) r)) ∧
      ∀ k < i + count, (cumulateFrom x count i cumulProd buf).2 k = chainProd x k := by
  induction count generalizing i cumulProd buf with
  | zero => exact ⟨hcumul, hbuf⟩
  | succ count ih =>
    have hmod : i % 4 < 4 := Nat.mod_lt i (by decide)
    have hlast : lastOf i (i % 4) = i - 4 := by
      unfold lastOf
      omega
    have hproduct : cumulProd (i % 4) * x i = chainProd x i := by
      rw [hcumul _ hmod, hlast]
      have hstep := chainProd_add x (i - 4)
      rw [Nat.sub_add_cancel hi] at hstep
      exact hstep.symm
    have hnext : i + 1 + count = i + (count + 1) := by omega
    rw [cumulateFrom, ← hnext]
    apply ih (i + 1) (by omega)
    · intro r hr
      rw [Function.update_apply]
      split_ifs with heq
      · have hsame : lastOf (i + 1) r = i := by
          unfold lastOf
          omega
        rw [hproduct, hsame]
      · have hsame : lastOf (i + 1) r = lastOf i r := by
          unfold lastOf
          omega
        rw [hcumul r hr, hsame]
    · intro k hk
      rw [Function.update_apply]
      split_ifs with heq
      · rw [hproduct, heq]
      · exact hbuf k (by omega)

/-- On the way back every place is given the inverse of its element. -/
lemma unwindFrom_spec (count : ℕ) (hx : ∀ k < count + 4, x k ≠ 0) {aInv buf : ℕ → F}
    (haInv : ∀ r < 4, aInv r = (chainProd x (lastOf (count + 4) r))⁻¹)
    (hbuf : ∀ k < count + 4, buf k = chainProd x k) :
    (∀ r < 4, (unwindFrom x count aInv buf).1 r = (x r)⁻¹) ∧
      (∀ k, 4 ≤ k → k < count + 4 → (unwindFrom x count aInv buf).2 k = (x k)⁻¹) ∧
      ∀ k, count + 4 ≤ k → (unwindFrom x count aInv buf).2 k = buf k := by
  induction count generalizing aInv buf with
  | zero =>
    refine ⟨?_, ?_, fun _ _ => rfl⟩
    · intro r hr
      have hlast : lastOf 4 r = r := by
        unfold lastOf
        omega
      change aInv r = (x r)⁻¹
      rw [haInv r hr, Nat.zero_add, hlast, chainProd_of_lt x hr]
    · intro k hk hlt
      omega
  | succ count ih =>
    have hmod : (count + 4) % 4 < 4 := Nat.mod_lt _ (by decide)
    have hlast : lastOf (count + 1 + 4) ((count + 4) % 4) = count + 4 := by
      unfold lastOf
      omega
    have hne : x (count + 4) ≠ 0 := hx _ (by omega)
    have hchain := chainProd_add x count
    have hprev : chainProd x count ≠ 0 := by
      refine Finset.prod_ne_zero_iff.mpr fun k hk => hx _ ?_
      have := Finset.mem_range.mp hk
      omega
    have hhead : aInv ((count + 4) % 4) = (chainProd x count * x (count + 4))⁻¹ := by
      rw [haInv _ hmod, hlast, hchain]
    have hinv : buf count * aInv ((count + 4) % 4) = (x (count + 4))⁻¹ := by
      rw [hbuf count (by omega), hhead, mul_inv, mul_inv_cancel_left₀ hprev]
    have hinvs : ∀ r < 4, Function.update aInv ((count + 4) % 4)
        (aInv ((count + 4) % 4) * x (count + 4)) r = (chainProd x (lastOf (count + 4) r))⁻¹ := by
      intro r hr
      rw [Function.update_apply]
      split_ifs with heq
      · have hsame : lastOf (count + 4) r = count := by
          unfold lastOf
          omega
        rw [hsame, hhead, mul_inv, inv_mul_cancel_right₀ hne]
      · have hsame : lastOf (count + 1 + 4) r = lastOf (count + 4) r := by
          unfold lastOf
          omega
        rw [haInv r hr, hsame]
    have hbufs : ∀ k < count + 4, Function.update buf (count + 4)
        (buf (count + 4 - 4) * aInv ((count + 4) % 4)) k = chainProd x k := by
      intro k hk
      rw [Function.update_of_ne (by omega), hbuf k (by omega)]
    obtain ⟨hfirst, hmiddle, hkept⟩ := ih (fun k hk => hx k (by omega)) hinvs hbufs
    refine ⟨hfirst, ?_, ?_⟩
    · intro k hk hlt
      rw [unwindFrom]
      rcases Nat.lt_or_ge k (count + 4) with hlt' | hge
      · exact hmiddle k hk hlt'
      · obtain rfl : k = count + 4 := by omega
        rw [hkept _ le_rfl, Function.update_self, Nat.add_sub_cancel, hinv]
    · intro k hk
      rw [unwindFrom, hkept k (by omega), Function.update_of_ne (by omega)]

end Long

/-! ### The result -/

omit [DecidableEq F] in
/-- An element that is zero makes the last product of its chain zero. -/
lemma chainProd_lastOf_eq_zero_iff (x : ℕ → F) {n r : ℕ} (hn : 4 ≤ n) (hr : r < 4) :
    chainProd x (lastOf n r) = 0 ↔ ∃ k < n, k % 4 = r ∧ x k = 0 := by
  have hmod : lastOf n r % 4 = r := by
    unfold lastOf
    omega
  rw [chainProd, hmod, Finset.prod_eq_zero_iff]
  constructor
  · rintro ⟨k, hk, hzero⟩
    have hk := Finset.mem_range.mp hk
    refine ⟨r + 4 * k, ?_, by omega, hzero⟩
    unfold lastOf at hk
    omega
  · rintro ⟨k, hk, hkr, hzero⟩
    refine ⟨k / 4, Finset.mem_range.mpr ?_, ?_⟩
    · unfold lastOf
      omega
    · have hindex : r + 4 * (k / 4) = k := by omega
      rw [hindex, hzero]

omit [DecidableEq F] in
/-- The product of all chains is zero when an element is. -/
lemma mul_lastOf_eq_zero_iff (x : ℕ → F) {n : ℕ} (hn : 4 ≤ n) :
    chainProd x (lastOf n 0) * chainProd x (lastOf n 1) *
        (chainProd x (lastOf n 2) * chainProd x (lastOf n 3)) = 0 ↔ ∃ k < n, x k = 0 := by
  simp only [mul_eq_zero, chainProd_lastOf_eq_zero_iff x hn (by decide : 0 < 4),
    chainProd_lastOf_eq_zero_iff x hn (by decide : 1 < 4),
    chainProd_lastOf_eq_zero_iff x hn (by decide : 2 < 4),
    chainProd_lastOf_eq_zero_iff x hn (by decide : 3 < 4)]
  constructor
  · rintro ((h | h) | (h | h)) <;> obtain ⟨k, hk, -, hzero⟩ := h <;> exact ⟨k, hk, hzero⟩
  · rintro ⟨k, hk, hzero⟩
    have hmod := Nat.mod_lt k (by decide : 0 < 4)
    obtain h | h | h | h : k % 4 = 0 ∨ k % 4 = 1 ∨ k % 4 = 2 ∨ k % 4 = 3 := by omega
    · exact .inl (.inl ⟨k, hk, h, hzero⟩)
    · exact .inl (.inr ⟨k, hk, h, hzero⟩)
    · exact .inr (.inl ⟨k, hk, h, hzero⟩)
    · exact .inr (.inr ⟨k, hk, h, hzero⟩)

/-- The general case inverts every element, and panics if one is zero. -/
lemma batchInverseLong_eq (x : ℕ → F) {n : ℕ} (hn : 4 ≤ n) :
    batchInverseLong x n =
      if ∃ k < n, x k = 0 then none else some ((List.range n).map fun k => (x k)⁻¹) := by
  have hsum : 4 + (n - 4) = n := by omega
  have hstart : ∀ r < 4, x r = chainProd x (lastOf 4 r) := by
    intro r hr
    have hlast : lastOf 4 r = r := by
      unfold lastOf
      omega
    rw [hlast, chainProd_of_lt x hr]
  obtain ⟨hcumul, hbuf⟩ := cumulateFrom_spec x (n - 4) 4 le_rfl hstart
    fun k hk => (chainProd_of_lt x hk).symm
  rw [hsum] at hcumul hbuf
  rw [batchInverseLong]
  generalize cumulateFrom x (n - 4) 4 x x = cumulated at hcumul hbuf
  obtain ⟨c, buf⟩ := cumulated
  dsimp only at hcumul hbuf ⊢
  have hzero := mul_lastOf_eq_zero_iff x hn
  rw [← hcumul 0 (by decide), ← hcumul 1 (by decide), ← hcumul 2 (by decide),
    ← hcumul 3 (by decide)] at hzero
  by_cases hall : ∃ k < n, x k = 0
  · rw [if_pos hall, hzero.mpr hall, tryInverse_zero]
    rfl
  · have hne := mt hzero.mp hall
    rw [if_neg hall, tryInverse_of_ne_zero hne]
    simp only [Option.bind_eq_bind, Option.bind_some, Option.pure_def, Option.some.injEq]
    set aInv : ℕ → F := fun r =>
      [(c 0 * c 1 * (c 2 * c 3))⁻¹ * (c 2 * c 3) * c 1,
        (c 0 * c 1 * (c 2 * c 3))⁻¹ * (c 2 * c 3) * c 0,
        (c 0 * c 1 * (c 2 * c 3))⁻¹ * (c 0 * c 1) * c 3,
        (c 0 * c 1 * (c 2 * c 3))⁻¹ * (c 0 * c 1) * c 2].getD r 0 with haInv
    simp only [mul_ne_zero_iff] at hne
    obtain ⟨⟨h0, h1⟩, h2, h3⟩ := hne
    have hinvs : ∀ r < 4, aInv r = (chainProd x (lastOf (n - 4 + 4) r))⁻¹ := by
      intro r hr
      rw [Nat.sub_add_cancel hn, ← hcumul r hr]
      obtain rfl | rfl | rfl | rfl : r = 0 ∨ r = 1 ∨ r = 2 ∨ r = 3 := by omega
      all_goals
        simp only [haInv, List.getD_cons_zero, List.getD_cons_succ]
        field_simp
    obtain ⟨hfirst, hrest, -⟩ := unwindFrom_spec x (n - 4)
      (fun k hk hk0 => hall ⟨k, by omega, hk0⟩) hinvs fun k hk => hbuf k (by omega)
    apply List.map_congr_left
    intro k hk
    have hk := List.mem_range.mp hk
    split_ifs with hlt
    · exact hfirst k hlt
    · exact hrest k (by omega) (by omega)

/-- The general case on the elements of a list. -/
lemma batchInverseLong_getD {x : List F} (hx : 4 ≤ x.length) :
    batchInverseLong (x.getD · 0) x.length = if 0 ∈ x then none else some (x.map (·⁻¹)) := by
  have hget : ∀ (k : ℕ) (hk : k < x.length), x.getD k 0 = x[k] := by
    intro k hk
    rw [List.getD_eq_getElem?_getD, List.getElem?_eq_getElem hk, Option.getD_some]
  have hmem : (∃ k < x.length, x.getD k 0 = 0) ↔ 0 ∈ x := by
    rw [List.mem_iff_getElem]
    constructor
    · rintro ⟨k, hk, hzero⟩
      exact ⟨k, hk, (hget k hk).symm.trans hzero⟩
    · rintro ⟨k, hk, hzero⟩
      exact ⟨k, hk, (hget k hk).trans hzero⟩
  have hmap : (List.range x.length).map (fun k => (x.getD k 0)⁻¹) = x.map (·⁻¹) := by
    apply List.ext_getElem
    · simp
    · intro k _ hk
      rw [List.length_map] at hk
      rw [List.getElem_map, List.getElem_range, List.getElem_map, hget k hk]
  rw [batchInverseLong_eq _ hx, hmap]
  simp only [hmem]

/-- Every element is inverted, and the only panic is on a list with a zero. -/
theorem batchMultiplicativeInverse_eq (x : List F) :
    batchMultiplicativeInverse x = MegaZK.batchMultiplicativeInverse x := by
  rw [MegaZK.batchMultiplicativeInverse]
  rcases x with _ | ⟨x0, _ | ⟨x1, _ | ⟨x2, _ | ⟨x3, rest⟩⟩⟩⟩
  · rfl
  · rw [batchMultiplicativeInverse]
    by_cases h0 : x0 = 0
    · simp [h0, tryInverse_zero]
    · simp [tryInverse_of_ne_zero h0, Ne.symm h0]
  · rw [batchMultiplicativeInverse]
    by_cases hzero : x0 * x1 = 0
    · have hmem : 0 ∈ [x0, x1] := by simpa [eq_comm] using mul_eq_zero.mp hzero
      rw [if_pos hmem, hzero, tryInverse_zero]
      rfl
    · obtain ⟨h0, h1⟩ := mul_ne_zero_iff.mp hzero
      have hmem : 0 ∉ [x0, x1] := by simp [Ne.symm h0, Ne.symm h1]
      simp only [if_neg hmem, tryInverse_of_ne_zero hzero, Option.bind_eq_bind, Option.bind_some,
        Option.pure_def, List.map_cons, List.map_nil, Option.some.injEq, List.cons.injEq, and_true]
      refine ⟨?_, ?_⟩ <;> field_simp
  · rw [batchMultiplicativeInverse]
    by_cases hzero : x0 * x1 * x2 = 0
    · have hmem : 0 ∈ [x0, x1, x2] := by simpa [eq_comm, or_assoc] using hzero
      simp only [if_pos hmem, hzero, tryInverse_zero, Option.bind_eq_bind, Option.bind_none]
    · obtain ⟨h01, h2⟩ := mul_ne_zero_iff.mp hzero
      obtain ⟨h0, h1⟩ := mul_ne_zero_iff.mp h01
      have hmem : 0 ∉ [x0, x1, x2] := by simp [Ne.symm h0, Ne.symm h1, Ne.symm h2]
      simp only [if_neg hmem, tryInverse_of_ne_zero hzero, Option.bind_eq_bind, Option.bind_some,
        Option.pure_def, List.map_cons, List.map_nil, Option.some.injEq, List.cons.injEq, and_true]
      refine ⟨?_, ?_, ?_⟩ <;> field_simp
  · exact batchInverseLong_getD (by simp)

end Montgomery

end MegaZK
