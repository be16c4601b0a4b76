import Mathlib.Data.Nat.Basic
import Mathlib.Algebra.Order.BigOperators.Group.List
import Mathlib.Algebra.Ring.Nat

/-! # Programs over machine words

A program whose state says whether the result of an operation has not fitted its word. It is exact
where it runs without such an operation. -/

/-- A program over machine words. -/
abbrev Words (α : Type) := StateM Bool α

namespace Words

variable {α β : Type}

/-- The result `x` of an operation on words of `w` bits. -/
def word (w x : ℕ) : Words ℕ := do
  modify fun wrapped => wrapped || decide (2 ^ w ≤ x)
  return x % 2 ^ w

/-- The difference of two words of `w` bits. -/
def wordSub (w x y : ℕ) : Words ℕ := do
  modify fun wrapped => wrapped || decide (x < y)
  return (x + 2 ^ w - y) % 2 ^ w

/-- The sum of products of words of `w` bits, from the left. -/
def dot (w : ℕ) : List (ℕ × ℕ) → ℕ → Words ℕ
  | [], sum => pure sum
  | (x, y) :: factors, sum => do
    let product ← word w (x * y)
    let sum ← word w (sum + product)
    dot w factors sum

/-- The program ends with a result in `post`, and no operation has wrapped. -/
def Exact (prog : Words α) (post : α → Prop) : Prop := ∃ r, prog = pure r ∧ post r

lemma word_of_lt {w x : ℕ} (h : x < 2 ^ w) : word w x = pure x := by
  funext wrapped
  change (x % 2 ^ w, wrapped || decide (2 ^ w ≤ x)) = (x, wrapped)
  rw [Nat.mod_eq_of_lt h, decide_eq_false (not_le.mpr h), Bool.or_false]

lemma wordSub_of_le {w x y : ℕ} (hx : x < 2 ^ w) (h : y ≤ x) : wordSub w x y = pure (x - y) := by
  funext wrapped
  change ((x + 2 ^ w - y) % 2 ^ w, wrapped || decide (x < y)) = (x - y, wrapped)
  rw [Nat.sub_add_comm h, Nat.add_mod_right, Nat.mod_eq_of_lt ((Nat.sub_le x y).trans_lt hx),
    decide_eq_false (not_lt.mpr h), Bool.or_false]

lemma dot_of_lt {w : ℕ} {factors : List (ℕ × ℕ)} {sum : ℕ}
    (h : sum + (factors.map fun f => f.1 * f.2).sum < 2 ^ w) :
    dot w factors sum = pure (sum + (factors.map fun f => f.1 * f.2).sum) := by
  induction factors generalizing sum with
  | nil => rfl
  | cons f factors ih =>
    rw [List.map_cons, List.sum_cons, ← add_assoc] at h
    have hsum : sum + f.1 * f.2 < 2 ^ w := (Nat.le_add_right _ _).trans_lt h
    have hproduct : f.1 * f.2 < 2 ^ w := (Nat.le_add_left _ _).trans_lt hsum
    rw [dot, word_of_lt hproduct, pure_bind, word_of_lt hsum, pure_bind, ih h, List.map_cons,
      List.sum_cons, add_assoc]

namespace Exact

variable {prog : Words α} {f : α → Words β} {post : α → Prop} {post' : β → Prop}

lemma pure {r : α} (h : post r) : Exact (Pure.pure r) post := ⟨r, rfl, h⟩

lemma bind (h : Exact prog post) (hf : ∀ r, post r → Exact (f r) post') :
    Exact (prog >>= f) post' := by
  obtain ⟨r, rfl, hr⟩ := h
  rw [pure_bind]
  exact hf r hr

lemma mono {post' : α → Prop} (h : Exact prog post) (himp : ∀ r, post r → post' r) :
    Exact prog post' := by
  obtain ⟨r, hr, hpost⟩ := h
  exact ⟨r, hr, himp r hpost⟩

/-- The result of a program is unique. -/
lemma and {post' : α → Prop} (h : Exact prog post) (h' : Exact prog post') :
    Exact prog fun r => post r ∧ post' r := by
  obtain ⟨r, hr, hpost⟩ := h
  obtain ⟨r', hr', hpost'⟩ := h'
  have heq : r = r' := congrArg Prod.fst (congrFun (hr.symm.trans hr') false)
  exact ⟨r, hr, hpost, heq ▸ hpost'⟩

lemma word {w x : ℕ} (h : x < 2 ^ w) : Exact (word w x) (· = x) := ⟨x, word_of_lt h, rfl⟩

lemma wordSub {w x y : ℕ} (hx : x < 2 ^ w) (h : y ≤ x) : Exact (wordSub w x y) (· = x - y) :=
  ⟨x - y, wordSub_of_le hx h, rfl⟩

lemma dot {w : ℕ} {factors : List (ℕ × ℕ)}
    (h : (factors.map fun f => f.1 * f.2).sum < 2 ^ w) :
    Exact (dot w factors 0) (· = (factors.map fun f => f.1 * f.2).sum) := by
  rw [← zero_add (List.sum _)] at h ⊢
  exact ⟨_, dot_of_lt h, rfl⟩

end Exact

end Words
