import Mathlib.Algebra.BigOperators.Group.List.Basic
import Mathlib.Logic.Function.Basic
import Mathlib.Tactic.Common
import Mathlib.Tactic.Ring

/-! # Running products

Products of the first terms of a sequence, the loop that replaces a range of cells by its running
products, and the scan by blocks. -/

namespace Scan

section Monoid

variable {M : Type*} [Monoid M]

/-- The product of the first `n` terms. -/
def runningProd (f : ℕ → M) (n : ℕ) : M := ((List.range n).map f).prod

@[simp] lemma runningProd_zero (f : ℕ → M) : runningProd f 0 = 1 := rfl

lemma runningProd_succ (f : ℕ → M) (n : ℕ) : runningProd f (n + 1) = runningProd f n * f n := by
  simp [runningProd, List.range_succ]

lemma runningProd_add (f : ℕ → M) (m n : ℕ) :
    runningProd f (m + n) = runningProd f m * runningProd (fun i => f (m + i)) n := by
  induction n with
  | zero => simp
  | succ n ih => rw [← add_assoc, runningProd_succ, ih, runningProd_succ, mul_assoc]

lemma runningProd_succ' (f : ℕ → M) (n : ℕ) :
    runningProd f (n + 1) = f 0 * runningProd (fun i => f (i + 1)) n := by
  have h := runningProd_add f 1 n
  simp only [runningProd_succ f 0, runningProd_zero, one_mul] at h
  rw [add_comm n 1, h]
  simp only [add_comm 1]

lemma runningProd_congr {f g : ℕ → M} {n : ℕ} (h : ∀ i < n, f i = g i) :
    runningProd f n = runningProd g n := by
  unfold runningProd
  congr 1
  apply List.map_congr_left
  intro i hi
  exact h i (List.mem_range.mp hi)

lemma runningProd_one {f : ℕ → M} {n : ℕ} (h : ∀ i < n, f i = 1) : runningProd f n = 1 := by
  induction n with
  | zero => rfl
  | succ n ih => rw [runningProd_succ, ih (fun i hi => h i (by omega)), h n (by omega), one_mul]

/-- A product with a single term other than one. -/
lemma runningProd_single {f : ℕ → M} {n i : ℕ} (hi : i < n) (h : ∀ j < n, j ≠ i → f j = 1) :
    runningProd f n = f i := by
  obtain ⟨k, rfl⟩ := Nat.exists_eq_add_of_lt hi
  rw [add_assoc, runningProd_add, runningProd_succ', Nat.add_zero,
    runningProd_one (fun j hj => h j (by omega) (by omega)),
    runningProd_one (fun j hj => h _ (by omega) (by omega)), one_mul, mul_one]

/-- The products of blocks of `b` terms multiply up to the product of all terms. -/
lemma runningProd_blocks (f : ℕ → M) (b n : ℕ) :
    runningProd (fun x => runningProd (fun t => f (x * b + t)) b) n = runningProd f (n * b) := by
  induction n with
  | zero => simp
  | succ n ih => rw [runningProd_succ, ih, Nat.succ_mul, runningProd_add]

/-- `for i in start..start+n { prod *= m[i]; m[i] = prod }`. -/
def scanLoop (start n : ℕ) (m : ℕ → M) : M × (ℕ → M) :=
  (List.range n).foldl
    (fun s i => (s.1 * s.2 (start + i), Function.update s.2 (start + i) (s.1 * s.2 (start + i))))
    (1, m)

lemma scanLoop_succ (start n : ℕ) (m : ℕ → M) :
    scanLoop start (n + 1) m =
      ((scanLoop start n m).1 * (scanLoop start n m).2 (start + n),
        Function.update (scanLoop start n m).2 (start + n)
          ((scanLoop start n m).1 * (scanLoop start n m).2 (start + n))) := by
  simp [scanLoop, List.range_succ]

/-- The loop invariant: the accumulator is the product so far, the cells already visited hold
their running products and the others are as before. -/
lemma scanLoop_spec (start n : ℕ) (m : ℕ → M) :
    (scanLoop start n m).1 = runningProd (fun i => m (start + i)) n ∧
      (∀ i < n, (scanLoop start n m).2 (start + i) = runningProd (fun i => m (start + i)) (i + 1)) ∧
      ∀ x, x < start ∨ start + n ≤ x → (scanLoop start n m).2 x = m x := by
  induction n with
  | zero =>
    refine ⟨rfl, ?_, fun x _ => rfl⟩
    intro i hi
    omega
  | succ n ih =>
    obtain ⟨hprod, hcells, hrest⟩ := ih
    have hread : (scanLoop start n m).2 (start + n) = m (start + n) := hrest _ (by omega)
    rw [scanLoop_succ, hread, hprod, ← runningProd_succ (fun i => m (start + i))]
    dsimp only
    refine ⟨rfl, ?_, ?_⟩
    · intro i hi
      rcases Nat.lt_succ_iff_lt_or_eq.mp hi with hi | rfl
      · rw [Function.update_of_ne (by omega), hcells i hi]
      · rw [Function.update_self]
    · intro x hx
      rw [Function.update_of_ne (by omega), hrest x (by omega)]

lemma scanLoop_of_lt (start : ℕ) {n i : ℕ} (m : ℕ → M) (hi : i < n) :
    (scanLoop start n m).2 (start + i) = runningProd (fun i => m (start + i)) (i + 1) :=
  (scanLoop_spec start n m).2.1 i hi

lemma scanLoop_of_outside {start n x : ℕ} (m : ℕ → M) (hx : x < start ∨ start + n ≤ x) :
    (scanLoop start n m).2 x = m x :=
  (scanLoop_spec start n m).2.2 x hx

end Monoid

section CommMonoid

variable {M : Type*} [CommMonoid M]

/-- The scan by blocks: a running product inside block `x`, times the product of the blocks before
it, is the running product of the whole sequence. -/
lemma runningProd_local_mul_blocks (f : ℕ → M) (b x t : ℕ) :
    runningProd (fun t => f (x * b + t)) (t + 1) *
        runningProd (fun x => runningProd (fun t => f (x * b + t)) b) x =
      runningProd f (x * b + t + 1) := by
  rw [runningProd_blocks, mul_comm, ← runningProd_add, ← add_assoc]

end CommMonoid

section Zero

variable {M : Type*} [MonoidWithZero M]

lemma runningProd_ne_zero [NoZeroDivisors M] [Nontrivial M] {f : ℕ → M} {n : ℕ}
    (h : ∀ i < n, f i ≠ 0) : runningProd f n ≠ 0 := by
  induction n with
  | zero => simp
  | succ n ih =>
    rw [runningProd_succ]
    exact mul_ne_zero (ih (fun i hi => h i (by omega))) (h n (by omega))

lemma runningProd_eq_zero {f : ℕ → M} {n i : ℕ} (hi : i < n) (h : f i = 0) :
    runningProd f n = 0 := by
  obtain ⟨k, rfl⟩ := Nat.exists_eq_add_of_lt hi
  rw [add_assoc, runningProd_add, runningProd_succ', Nat.add_zero, h]
  simp

end Zero

end Scan
