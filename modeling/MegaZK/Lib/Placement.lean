import Mathlib.Data.Nat.Basic
import Mathlib.Tactic.Common

/-! # Aligned serial placement

Regions of given sizes are placed one after the other, each at the next multiple of an
alignment. -/

namespace Placement

variable (a : ℕ)

/-- The next multiple of `a`. -/
def roundUp (x : ℕ) : ℕ := (x + a - 1) / a * a

/-- The end of the last of the regions placed from `x` on. -/
def finish : List ℕ → ℕ → ℕ
  | [], x => x
  | n :: ns, x => finish ns (roundUp a x + n)

variable {a}

lemma dvd_roundUp (x : ℕ) : a ∣ roundUp a x := Nat.dvd_mul_left a _

lemma le_roundUp (ha : 0 < a) (x : ℕ) : x ≤ roundUp a x := by
  have hmod := Nat.div_add_mod' (x + a - 1) a
  have hlt := Nat.mod_lt (x + a - 1) ha
  unfold roundUp
  omega

lemma roundUp_le {x y : ℕ} (hxy : x ≤ y) (hy : a ∣ y) : roundUp a x ≤ y := by
  obtain ⟨k, rfl⟩ := hy
  rcases Nat.eq_zero_or_pos a with rfl | ha
  · simp [roundUp]
  · have hdiv : (x + a - 1) / a < k + 1 := by
      apply Nat.div_lt_of_lt_mul
      rw [Nat.mul_succ]
      omega
    rw [roundUp, Nat.mul_comm a k]
    exact Nat.mul_le_mul_right a (Nat.lt_succ_iff.mp hdiv)

lemma roundUp_of_dvd {x : ℕ} (ha : 0 < a) (hx : a ∣ x) : roundUp a x = x :=
  Nat.le_antisymm (roundUp_le le_rfl hx) (le_roundUp ha x)

lemma le_finish (ha : 0 < a) (ns : List ℕ) (x : ℕ) : x ≤ finish a ns x := by
  induction ns generalizing x with
  | nil => exact le_rfl
  | cons n ns ih =>
    calc x ≤ roundUp a x := le_roundUp ha x
      _ ≤ roundUp a x + n := Nat.le_add_right _ _
      _ ≤ finish a ns (roundUp a x + n) := ih _

lemma finish_append (ms ns : List ℕ) (x : ℕ) :
    finish a (ms ++ ns) x = finish a ns (finish a ms x) := by
  induction ms generalizing x with
  | nil => rfl
  | cons m ms ih => exact ih _

end Placement
