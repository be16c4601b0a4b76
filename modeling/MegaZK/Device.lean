import Mathlib.Algebra.Group.Nat.Defs
import Mathlib.Data.Nat.Basic
import Mathlib.Tactic.Common

/-! # Device buffers and 32-bit numbers

The source keeps sizes and offsets in `u32` and wraps silently in release builds; kernels index
with `unsigned`. -/

namespace MegaZK

/-- `x as u32`. -/
def u32 (x : ℕ) : ℕ := x % 2 ^ 32

/-- `u32::MAX`. -/
def u32Max : ℕ := 2 ^ 32 - 1

/-- The largest block a kernel can be launched with. -/
def maxThreadsPerBlock : ℕ := 1024

/-- An allocation: its length and its cells. -/
structure DeviceBuffer (F : Type*) where
  len : ℕ
  cell : ℕ → F

lemma u32_of_lt {x : ℕ} (hx : x < 2 ^ 32) : u32 x = x := Nat.mod_eq_of_lt hx

/-- A block of a power of two does not wrap in the middle. -/
lemma u32_mul_two_pow_add_le (q : ℕ) {n : ℕ} (hn : n ≤ 32) : u32 (q * 2 ^ n) + 2 ^ n ≤ 2 ^ 32 := by
  have hdvd : 2 ^ n ∣ 2 ^ 32 := Nat.pow_dvd_pow 2 hn
  have hquot : q % (2 ^ 32 / 2 ^ n) < 2 ^ 32 / 2 ^ n :=
    Nat.mod_lt _ (Nat.div_pos (Nat.le_of_dvd (Nat.two_pow_pos 32) hdvd) (Nat.two_pow_pos n))
  calc u32 (q * 2 ^ n) + 2 ^ n = (q % (2 ^ 32 / 2 ^ n) + 1) * 2 ^ n := by
        rw [Nat.succ_mul, u32, ← Nat.mul_mod_mul_right, Nat.div_mul_cancel hdvd]
    _ ≤ 2 ^ 32 / 2 ^ n * 2 ^ n := Nat.mul_le_mul_right _ hquot
    _ = 2 ^ 32 := Nat.div_mul_cancel hdvd

end MegaZK
