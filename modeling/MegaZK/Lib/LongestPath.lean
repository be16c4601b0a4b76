import Mathlib.Data.Fintype.Card
import Mathlib.Logic.Relation
import Mathlib.Order.Bounds.Basic
import Mathlib.Tactic.Common

/-! # Longest paths

Paths of a relation with their lengths. A function that grows along every edge, and that only grows
by one from some predecessor, gives the length of the longest path to every point. On a finite set
an acyclic relation has ranks. -/

namespace LongestPath

variable {α : Type*} {r : α → α → Prop}

/-- A path of `k` edges. -/
inductive Path (r : α → α → Prop) : ℕ → α → α → Prop
  | refl (a : α) : Path r 0 a a
  | tail {k : ℕ} {a b c : α} (h : Path r k a b) (hbc : r b c) : Path r (k + 1) a c

lemma Path.single {a b : α} (h : r a b) : Path r 1 a b := .tail (.refl a) h

lemma Path.head {k : ℕ} {a b c : α} (hab : r a b) (h : Path r k b c) : Path r (k + 1) a c := by
  induction h with
  | refl b => exact .single hab
  | tail h hbc ih => exact .tail (ih hab) hbc

lemma Path.swap {k : ℕ} {a b : α} (h : Path r k a b) : Path (Function.swap r) k b a := by
  induction h with
  | refl a => exact .refl a
  | tail h hbc ih => exact .head hbc ih

lemma path_swap {k : ℕ} {a b : α} : Path (Function.swap r) k b a ↔ Path r k a b := by
  constructor
  · exact fun h => h.swap
  · exact fun h => h.swap

/-- The lengths of the paths that end at a point. -/
def lengthsTo (r : α → α → Prop) (b : α) : Set ℕ := {k | ∃ a, Path r k a b}

/-- The lengths of the paths that leave a point. -/
def lengthsFrom (r : α → α → Prop) (a : α) : Set ℕ := {k | ∃ b, Path r k a b}

lemma lengthsTo_swap (a : α) : lengthsTo (Function.swap r) a = lengthsFrom r a := by
  ext k
  exact exists_congr fun b => path_swap

section Level

variable {level : α → ℕ}

lemma Path.add_le (hstep : ∀ a b, r a b → level a < level b) {k : ℕ} {a b : α}
    (h : Path r k a b) : level a + k ≤ level b := by
  induction h with
  | refl a => exact le_rfl
  | tail h hbc ih =>
    have hlt := hstep _ _ hbc
    omega

lemma exists_path (htight : ∀ b, 0 < level b → ∃ a, r a b ∧ level a + 1 = level b) (b : α) :
    ∃ a, Path r (level b) a b := by
  induction hk : level b generalizing b with
  | zero => exact ⟨b, .refl b⟩
  | succ k ih =>
    obtain ⟨a, hab, hlevel⟩ := htight b (by omega)
    obtain ⟨c, hpath⟩ := ih a (by omega)
    exact ⟨c, .tail hpath hab⟩

/-- Levels that grow along the edges, but not by more than they must, are longest paths. -/
lemma isGreatest_lengthsTo (hstep : ∀ a b, r a b → level a < level b)
    (htight : ∀ b, 0 < level b → ∃ a, r a b ∧ level a + 1 = level b) (b : α) :
    IsGreatest (lengthsTo r b) (level b) := by
  constructor
  · exact exists_path htight b
  · rintro k ⟨a, hpath⟩
    exact le_trans (Nat.le_add_left k (level a)) (hpath.add_le hstep)

end Level

/-- An acyclic relation on a finite set of points is ranked by the number of points below. -/
lemma exists_rank {s : Finset α} (hmem : ∀ a b, r a b → a ∈ s)
    (hacyclic : ∀ a, ¬ Relation.TransGen r a a) :
    ∃ rank : α → ℕ, ∀ a b, r a b → rank a < rank b := by
  classical
  refine ⟨fun b => (s.filter fun a => Relation.TransGen r a b).card, fun a b hab => ?_⟩
  apply Finset.card_lt_card
  rw [Finset.ssubset_iff_of_subset]
  · refine ⟨a, ?_, ?_⟩
    · exact Finset.mem_filter.mpr ⟨hmem a b hab, .single hab⟩
    · exact fun h => hacyclic a (Finset.mem_filter.mp h).2
  · intro c hc
    obtain ⟨hcs, hca⟩ := Finset.mem_filter.mp hc
    exact Finset.mem_filter.mpr ⟨hcs, hca.tail hab⟩

end LongestPath
