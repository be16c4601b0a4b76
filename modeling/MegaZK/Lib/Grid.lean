import Mathlib.Data.List.ProdSigma
import Mathlib.Tactic.Common
import Mathlib.Tactic.Ring
import MegaZK.Lib.Scatter

/-! # Thread grids

The threads of a two-dimensional grid of one-dimensional blocks, and their numbering by rows of
blocks. -/

namespace Grid

/-- `blockIdx.y`, `blockIdx.x` and `threadIdx.x`. -/
structure Thread where
  y : ℕ
  x : ℕ
  t : ℕ
  deriving DecidableEq, Repr

/-- The threads of `gy` rows of `gx` blocks of `bx` threads. -/
def threads (gy gx bx : ℕ) : List Thread :=
  (List.range gy).flatMap fun y =>
    (List.range gx).flatMap fun x => (List.range bx).map fun t => ⟨y, x, t⟩

variable {gy gx bx : ℕ}

@[simp] lemma mem_threads {th : Thread} :
    th ∈ threads gy gx bx ↔ th.y < gy ∧ th.x < gx ∧ th.t < bx := by
  cases th
  simp [threads]

/-- The number of a thread in the grid. -/
def Thread.flat (gx bx : ℕ) (th : Thread) : ℕ := (th.y * gx + th.x) * bx + th.t

lemma Thread.flat_lt {th : Thread} (h : th ∈ threads gy gx bx) :
    th.flat gx bx < gy * gx * bx := by
  obtain ⟨hy, hx, ht⟩ := mem_threads.mp h
  have hblock : th.y * gx + th.x + 1 ≤ gy * gx := by
    calc th.y * gx + th.x + 1 ≤ (th.y + 1) * gx := by rw [Nat.succ_mul]; omega
      _ ≤ gy * gx := Nat.mul_le_mul_right gx hy
  calc th.flat gx bx < (th.y * gx + th.x) * bx + bx := by unfold Thread.flat; omega
    _ = (th.y * gx + th.x + 1) * bx := by rw [Nat.succ_mul]
    _ ≤ gy * gx * bx := Nat.mul_le_mul_right bx hblock

lemma Thread.flat_inj {th th' : Thread} (h : th ∈ threads gy gx bx)
    (h' : th' ∈ threads gy gx bx) (heq : th.flat gx bx = th'.flat gx bx) : th = th' := by
  obtain ⟨-, hx, ht⟩ := mem_threads.mp h
  obtain ⟨-, hx', ht'⟩ := mem_threads.mp h'
  unfold Thread.flat at heq
  obtain ⟨ht_eq, hblock⟩ := Scatter.stride_inj ht ht' (by rw [add_comm, heq, add_comm])
  obtain ⟨hx_eq, hy_eq⟩ := Scatter.stride_inj hx hx' (by rw [add_comm, hblock, add_comm])
  cases th
  cases th'
  simp_all

/-- Every number below the size of the grid is the number of a thread. -/
lemma exists_flat_eq (gy gx bx : ℕ) {n : ℕ} (hn : n < gy * gx * bx) :
    ∃ th ∈ threads gy gx bx, th.flat gx bx = n := by
  have hbx : 0 < bx := Nat.pos_of_ne_zero (by rintro rfl; simp at hn)
  have hblock : n / bx < gy * gx := Nat.div_lt_of_lt_mul (by rwa [mul_comm bx])
  have hgx : 0 < gx := Nat.pos_of_ne_zero (by rintro rfl; simp at hblock)
  refine ⟨⟨n / bx / gx, n / bx % gx, n % bx⟩, ?_, ?_⟩
  · rw [mem_threads]
    exact ⟨Nat.div_lt_of_lt_mul (by rwa [mul_comm gx]), Nat.mod_lt _ hgx, Nat.mod_lt _ hbx⟩
  · simp only [Thread.flat]
    rw [Nat.div_add_mod', Nat.div_add_mod']

/-- The thread of row `y` with number `m` in its row. -/
def threadAt (bx y m : ℕ) : Thread := ⟨y, m / bx, m % bx⟩

lemma threadAt_mem {y m : ℕ} (hy : y < gy) (hm : m < gx * bx) :
    threadAt bx y m ∈ threads gy gx bx := by
  have hbx : 0 < bx := Nat.pos_of_ne_zero (by rintro rfl; simp at hm)
  rw [mem_threads]
  exact ⟨hy, Nat.div_lt_of_lt_mul (by rwa [mul_comm bx]), Nat.mod_lt _ hbx⟩

lemma threadAt_flat (y m : ℕ) : (threadAt bx y m).flat gx bx = y * (gx * bx) + m := by
  simp only [threadAt, Thread.flat]
  rw [Nat.add_mul, Nat.add_assoc, Nat.div_add_mod', Nat.mul_assoc]

end Grid
