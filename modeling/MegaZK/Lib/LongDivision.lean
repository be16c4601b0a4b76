import MegaZK.Lib.Radix

/-! # Long division

Quotient digits of a window `W` by a divisor `V` of `n + 2` digits, estimated from their top three
and top two digits. -/

namespace LongDivision

open Horner Radix

variable {b n V W : ℕ}

/-- The estimate of a quotient digit. -/
def estimate (b n V W : ℕ) : ℕ := min (b - 1) (W / b ^ n / (V / b ^ n))

lemma estimate_lt (hb : 0 < b) (n V W : ℕ) : estimate b n V W < b := by
  have : estimate b n V W ≤ b - 1 := min_le_left _ _
  omega

/-- The estimate is not too small. -/
lemma div_le_estimate (hb : 0 < b) (hV : b ^ n ≤ V) (hW : W < V * b) :
    W / V ≤ estimate b n V W := by
  have hpow : 0 < b ^ n := by positivity
  have htop : 0 < V / b ^ n := Nat.div_pos hV hpow
  refine le_min ?_ ?_
  · have : W / V < b := Nat.div_lt_of_lt_mul hW
    omega
  · rw [Nat.le_div_iff_mul_le htop, Nat.le_div_iff_mul_le hpow]
    calc W / V * (V / b ^ n) * b ^ n = W / V * (V / b ^ n * b ^ n) := by ring
      _ ≤ W / V * V := Nat.mul_le_mul_left _ (Nat.div_mul_le_self _ _)
      _ ≤ W := Nat.div_mul_le_self _ _

/-- It exceeds the window by less than one top digit. -/
lemma estimate_mul_lt (hb : 0 < b) (n V W : ℕ) : estimate b n V W * V < W + b ^ (n + 1) := by
  have hpow : 0 < b ^ n := by positivity
  have hlow : V % b ^ n < b ^ n := Nat.mod_lt _ hpow
  have hlt := estimate_lt hb n V W
  calc estimate b n V W * V
      = estimate b n V W * (V / b ^ n) * b ^ n + estimate b n V W * (V % b ^ n) := by
        rw [mul_assoc, ← mul_add, Nat.div_add_mod']
    _ ≤ W / b ^ n * b ^ n + estimate b n V W * (V % b ^ n) := by
        apply Nat.add_le_add_right
        apply Nat.mul_le_mul_right
        exact (Nat.mul_le_mul_right _ (min_le_right _ _)).trans (Nat.div_mul_le_self _ _)
    _ ≤ W + estimate b n V W * (V % b ^ n) := Nat.add_le_add_right (Nat.div_mul_le_self _ _) _
    _ < W + b * b ^ n := by
        apply Nat.add_lt_add_left
        exact Nat.mul_lt_mul'' hlt hlow
    _ = W + b ^ (n + 1) := by rw [pow_succ']

/-- It is the quotient digit, or one too large. -/
lemma estimate_le_succ (hb : 0 < b) (hV : b ^ (n + 1) ≤ V) :
    estimate b n V W ≤ W / V + 1 := by
  have hpos : 0 < V := hV.trans_lt' (by positivity)
  have hlt := estimate_mul_lt hb n V W
  have hdiv := Nat.lt_div_mul_add (a := W) hpos
  have hmul : estimate b n V W * V < (W / V + 2) * V := by
    rw [add_mul]
    omega
  have := Nat.lt_of_mul_lt_mul_right hmul
  omega

/-- When the estimate is too large, the remainder is large. -/
lemma le_mod_of_lt_estimate (hb : 0 < b) (hlt : W / V < estimate b n V W) :
    V ≤ W % V + b ^ (n + 1) := by
  have hmul : (W / V + 1) * V < W + b ^ (n + 1) :=
    (Nat.mul_le_mul_right V hlt).trans_lt (estimate_mul_lt hb n V W)
  have hdiv := Nat.div_add_mod' W V
  rw [add_mul, one_mul] at hmul
  omega

/-- The test on the second digit of the divisor decides whether an estimate `q` from the top digits
is too large. -/
lemma div_lt_iff_of_mul_add {q rhat v1 v2 u12 u3 : ℕ} (hpos : 0 < v1 * b + v2)
    (hdiv : q * v1 + rhat = u12) :
    (u12 * b + u3) / (v1 * b + v2) < q ↔ rhat * b + u3 < q * v2 := by
  have hleft : u12 * b + u3 = q * v1 * b + (rhat * b + u3) := by
    rw [← hdiv]
    ring
  have hright : q * (v1 * b + v2) = q * v1 * b + q * v2 := by ring
  rw [Nat.div_lt_iff_lt_mul hpos, hleft, hright]
  exact Nat.add_lt_add_iff_left

/-- The estimate from one digit of the divisor is not smaller. -/
lemma div_le_div_top {v1 v2 u12 u3 : ℕ} (hu3 : u3 < b) (hv1 : 0 < v1) :
    (u12 * b + u3) / (v1 * b + v2) ≤ u12 / v1 := by
  rw [Nat.le_div_iff_mul_le hv1]
  have hmul := Nat.div_mul_le_self (u12 * b + u3) (v1 * b + v2)
  generalize (u12 * b + u3) / (v1 * b + v2) = q at hmul ⊢
  have hlt : q * v1 * b < (u12 + 1) * b := by
    calc q * v1 * b ≤ q * v1 * b + q * v2 := Nat.le_add_right _ _
      _ = q * (v1 * b + v2) := by ring
      _ ≤ u12 * b + u3 := hmul
      _ < (u12 + 1) * b := by rw [add_mul]; omega
  exact Nat.lt_succ_iff.mp (Nat.lt_of_mul_lt_mul_right hlt)

/-! ### Lost carries -/

/-- A sum of digits that are at most one. -/
lemma evalSum_mul_lt {d : ℕ → ℕ} (hb : 0 < b) (n : ℕ) (hd : ∀ i < n, d i ≤ 1) :
    evalSum d n b * (b - 1) < b ^ n := by
  induction n with
  | zero => simp
  | succ n ih =>
    have hlow := ih fun i hi => hd i (Nat.lt_succ_of_lt hi)
    have hterm : d n * b ^ n * (b - 1) ≤ b ^ n * (b - 1) := by
      apply Nat.mul_le_mul_right
      simpa using Nat.mul_le_mul_right (b ^ n) (hd n (Nat.lt_succ_self n))
    have hsplit : b ^ n + b ^ n * (b - 1) = b ^ (n + 1) := by
      rw [pow_succ, add_comm, ← Nat.mul_succ, Nat.succ_eq_add_one, Nat.sub_add_cancel hb]
    rw [evalSum_succ, add_mul]
    omega

/-- What the lost carries of an addition of `n + 2` digits take away is less than two top
digits. -/
lemma lost_lt {d : ℕ → ℕ} (hb : 2 ≤ b) (hd : ∀ i < n + 1, d i ≤ 1) :
    b * evalSum d (n + 1) b < 2 * b ^ (n + 1) := by
  have hlt := evalSum_mul_lt (Nat.zero_lt_of_lt hb) (n + 1) hd
  have hle : b ≤ 2 * (b - 1) := by omega
  calc b * evalSum d (n + 1) b ≤ 2 * (b - 1) * evalSum d (n + 1) b := Nat.mul_le_mul_right _ hle
    _ = 2 * (evalSum d (n + 1) b * (b - 1)) := by ring
    _ < 2 * b ^ (n + 1) := by omega

/-- The digits from `i` on. -/
lemma evalSum_div_pow {d : ℕ → ℕ} (hd : ∀ j, d j < b) (i k : ℕ) :
    evalSum d (i + k) b / b ^ i = evalSum (fun t => d (i + t)) k b := by
  have hb : 0 < b := Nat.zero_lt_of_lt (hd 0)
  have hlow : evalSum d i b < b ^ i := evalSum_lt fun j _ => hd j
  rw [evalSum_add, Nat.add_mul_div_left _ _ (by positivity), Nat.div_eq_of_lt hlow, zero_add]

/-- The digit of a number. -/
lemma evalSum_div_pow_mod {d : ℕ → ℕ} {i : ℕ} (hd : ∀ j, d j < b) (hi : i < n) :
    evalSum d n b / b ^ i % b = d i := by
  obtain ⟨k, rfl⟩ := Nat.exists_eq_add_of_lt hi
  rw [add_assoc, evalSum_div_pow hd, evalSum_succ', Nat.add_mul_mod_self_left, add_zero,
    Nat.mod_eq_of_lt (hd i)]

/-- The estimate is too large, and a digit sum of the addition that corrects it does not fit a
digit below the top one. -/
def Loses (b n V W : ℕ) : Prop :=
  W / V < estimate b n V W ∧
    ∃ i < n + 1, b ≤ (W % V + b ^ (n + 2) - V) / b ^ i % b + V / b ^ i % b

instance (b n V W : ℕ) : Decidable (Loses b n V W) := inferInstanceAs (Decidable (_ ∧ _))

end LongDivision
