import Mathlib.Data.List.Basic
import Mathlib.Logic.Function.Basic
import Mathlib.Tactic.Common

/-! # Scattered writes

A list of writers, each of which stores one value at one address. Where writers with the same
address agree on the value, the order does not matter and every address holds what was written
to it. -/

namespace Scatter

variable {ι κ α : Type*} [DecidableEq κ]

/-- Every writer `t` of the list stores `val t` at `dst t`. -/
def scatter (l : List ι) (dst : ι → κ) (val : ι → α) (m : κ → α) : κ → α :=
  l.foldl (fun m t => Function.update m (dst t) (val t)) m

variable {l : List ι} {dst : ι → κ} {val : ι → α}

@[simp] lemma scatter_nil (m : κ → α) : scatter [] dst val m = m := rfl

@[simp] lemma scatter_cons (t : ι) (m : κ → α) :
    scatter (t :: l) dst val m = scatter l dst val (Function.update m (dst t) (val t)) := rfl

lemma scatter_append (l' : List ι) (m : κ → α) :
    scatter (l ++ l') dst val m = scatter l' dst val (scatter l dst val m) := by
  simp [scatter]

/-- Addresses without a writer keep their value. -/
lemma scatter_of_forall_ne (m : κ → α) {x : κ} (h : ∀ t ∈ l, dst t ≠ x) :
    scatter l dst val m x = m x := by
  induction l generalizing m with
  | nil => rfl
  | cons t l ih =>
    rw [scatter_cons, ih _ (fun t' ht' => h t' (by simp [ht'])),
      Function.update_of_ne (h t (by simp)).symm]

/-- An address all of whose writers store the same value holds that value. -/
lemma scatter_of_forall_eq (m : κ → α) {x : κ} {v : α} (hex : ∃ t ∈ l, dst t = x)
    (h : ∀ t ∈ l, dst t = x → val t = v) : scatter l dst val m x = v := by
  induction l generalizing m with
  | nil => simp at hex
  | cons t l ih =>
    rw [scatter_cons]
    by_cases hex' : ∃ t' ∈ l, dst t' = x
    · exact ih _ hex' (fun t' ht' => h t' (by simp [ht']))
    · have htx : dst t = x := by
        obtain ⟨t', ht', hx⟩ := hex
        rcases List.mem_cons.mp ht' with rfl | ht'
        · exact hx
        · exact absurd ⟨t', ht', hx⟩ hex'
      rw [scatter_of_forall_ne _ (fun t' ht' hx => hex' ⟨t', ht', hx⟩), ← htx,
        Function.update_self]
      exact h t (by simp) htx

/-- What an address holds depends on nothing else it held before. -/
lemma scatter_congr_at {m m' : κ → α} {x : κ} (h : m x = m' x) :
    scatter l dst val m x = scatter l dst val m' x := by
  induction l generalizing m m' with
  | nil => exact h
  | cons t l ih =>
    rw [scatter_cons, scatter_cons]
    apply ih
    by_cases htx : x = dst t
    · rw [htx, Function.update_self, Function.update_self]
    · rw [Function.update_of_ne htx, Function.update_of_ne htx, h]

/-- With distinct addresses every writer finds its value at its address. -/
lemma scatter_of_mem (dst : ι → κ) (val : ι → α) (m : κ → α) {t : ι} (ht : t ∈ l)
    (hinj : ∀ t' ∈ l, dst t' = dst t → t' = t) : scatter l dst val m (dst t) = val t := by
  refine scatter_of_forall_eq m ⟨t, ht, rfl⟩ ?_
  intro t' ht' hdst
  rw [hinj t' ht' hdst]

/-! ### Replacing -/

/-- Every writer `t` of the list replaces what it finds at `dst t`. -/
def modifyAll (l : List ι) (dst : ι → κ) (f : ι → α → α) (m : κ → α) : κ → α :=
  l.foldl (fun m t => Function.update m (dst t) (f t (m (dst t)))) m

@[simp] lemma modifyAll_cons (t : ι) (f : ι → α → α) (m : κ → α) :
    modifyAll (t :: l) dst f m =
      modifyAll l dst f (Function.update m (dst t) (f t (m (dst t)))) := rfl

lemma modifyAll_of_forall_ne (f : ι → α → α) (m : κ → α) {x : κ} (h : ∀ t ∈ l, dst t ≠ x) :
    modifyAll l dst f m x = m x := by
  induction l generalizing m with
  | nil => rfl
  | cons t l ih =>
    rw [modifyAll_cons, ih _ fun t' ht' => h t' (List.mem_cons_of_mem t ht'),
      Function.update_of_ne (h t List.mem_cons_self).symm]

/-- Where no two writers have the same address, every cell is replaced once. -/
lemma modifyAll_of_mem (f : ι → α → α) (m : κ → α) (hnodup : (l.map dst).Nodup) {t : ι}
    (ht : t ∈ l) : modifyAll l dst f m (dst t) = f t (m (dst t)) := by
  induction l generalizing m with
  | nil => cases ht
  | cons t' l ih =>
    rw [List.map_cons, List.nodup_cons] at hnodup
    obtain ⟨hnot, hnodup⟩ := hnodup
    rw [modifyAll_cons]
    cases List.mem_cons.mp ht with
    | inl heq =>
      subst heq
      rw [modifyAll_of_forall_ne, Function.update_self]
      intro t' ht' hdst
      exact hnot (hdst ▸ List.mem_map_of_mem ht')
    | inr hmem =>
      have hne : dst t ≠ dst t' := fun hdst => hnot (hdst ▸ List.mem_map_of_mem hmem)
      rw [ih _ hnodup hmem, Function.update_of_ne hne]

/-- In an array of rows of length `n` a cell has one row and one column. -/
lemma stride_inj {n i i' j j' : ℕ} (hi : i < n) (hi' : i' < n)
    (h : i + j * n = i' + j' * n) : i = i' ∧ j = j' := by
  have hmod := congrArg (· % n) h
  simp only [Nat.add_mul_mod_self_right, Nat.mod_eq_of_lt hi, Nat.mod_eq_of_lt hi'] at hmod
  refine ⟨hmod, ?_⟩
  rw [hmod, Nat.add_right_inj] at h
  exact Nat.eq_of_mul_eq_mul_right (by omega) h

end Scatter
