import Mathlib.Data.List.ProdSigma
import Mathlib.Data.Set.Function
import Mathlib.Order.Interval.Set.Basic
import Mathlib.Tactic.Common
import Mathlib.Tactic.Ring
import MegaZK.Lib.Scatter

/-! # Covers

Lists of accesses that hit every address of an interval once, and no other address. -/

namespace Cover

open Set

variable {ι κ : Type*}

/-- Every address from `s` up to `t` belongs to one access, and no access has another address. -/
def Covers (l : List ι) (adr : ι → ℕ) (s t : ℕ) : Prop := BijOn adr {x | x ∈ l} (Ico s t)

variable {l : List ι} {adr : ι → ℕ} {s t : ℕ}

lemma Covers.lt (h : Covers l adr s t) {x : ι} (hx : x ∈ l) : adr x < t := (h.mapsTo hx).2

lemma Covers.inj (h : Covers l adr s t) {x x' : ι} (hx : x ∈ l) (hx' : x' ∈ l)
    (heq : adr x = adr x') : x = x' := h.injOn hx hx' heq

lemma Covers.exists_eq (h : Covers l adr s t) {a : ℕ} (hs : s ≤ a) (ht : a < t) :
    ∃ x ∈ l, adr x = a := h.surjOn ⟨hs, ht⟩

/-- Only the empty interval is covered without accesses. -/
lemma covers_nil_iff : Covers ([] : List ι) adr s t ↔ t ≤ s := by
  constructor
  · intro h
    by_contra hlt
    obtain ⟨x, hx, -⟩ := h.exists_eq (le_refl s) (not_le.mp hlt)
    cases hx
  · intro h
    have hempty : Ico s t = ∅ := Ico_eq_empty (not_lt.mpr h)
    have hnil : {x : ι | x ∈ ([] : List ι)} = ∅ := by simp
    rw [Covers, hempty, hnil]
    exact bijOn_empty adr

/-- Rows of length `b`: an index is a row and a column. -/
lemma bijOn_stride (a b : ℕ) :
    BijOn (fun p : ℕ × ℕ => p.1 * b + p.2) (Iio a ×ˢ Iio b) (Ico 0 (a * b)) := by
  refine ⟨?_, ?_, ?_⟩
  · rintro ⟨i, j⟩ ⟨hi, hj⟩
    have hi : i < a := hi
    have hj : j < b := hj
    refine ⟨Nat.zero_le _, ?_⟩
    calc i * b + j < i * b + b := by omega
      _ = (i + 1) * b := by ring
      _ ≤ a * b := Nat.mul_le_mul_right b hi
  · rintro ⟨i, j⟩ ⟨-, hj⟩ ⟨i', j'⟩ ⟨-, hj'⟩ heq
    have heq : i * b + j = i' * b + j' := heq
    obtain ⟨rfl, rfl⟩ := Scatter.stride_inj hj hj' (by omega : j + i * b = j' + i' * b)
    rfl
  · rintro n ⟨-, hn⟩
    have hb : 0 < b := Nat.pos_of_ne_zero (by rintro rfl; simp at hn)
    refine ⟨(n / b, n % b), ⟨Nat.div_lt_of_lt_mul (by rwa [mul_comm]), Nat.mod_lt n hb⟩, ?_⟩
    exact Nat.div_add_mod' n b

/-- Accesses in rows. -/
lemma covers_stride {hi lo : ι → ℕ} {a b : ℕ}
    (h : BijOn (fun x => (hi x, lo x)) {x | x ∈ l} (Iio a ×ˢ Iio b)) :
    Covers l (fun x => hi x * b + lo x) 0 (a * b) :=
  (bijOn_stride a b).comp h

/-- A bijection on pairs of numbers below bounds. -/
lemma bijOn_pair {hi lo : ι → ℕ} {a b : ℕ} (hlt : ∀ x ∈ l, hi x < a ∧ lo x < b)
    (hinj : ∀ x ∈ l, ∀ x' ∈ l, hi x = hi x' → lo x = lo x' → x = x')
    (hsurj : ∀ i < a, ∀ j < b, ∃ x ∈ l, hi x = i ∧ lo x = j) :
    BijOn (fun x => (hi x, lo x)) {x | x ∈ l} (Iio a ×ˢ Iio b) := by
  refine ⟨fun x hx => hlt x hx, ?_, ?_⟩
  · intro x hx x' hx' heq
    exact hinj x hx x' hx' (congrArg Prod.fst heq) (congrArg Prod.snd heq)
  · rintro ⟨i, j⟩ ⟨hi, hj⟩
    obtain ⟨x, hx, rfl, rfl⟩ := hsurj i hi j hj
    exact ⟨x, hx, rfl⟩

lemma covers_congr {f : ι → ℕ} (h : ∀ x ∈ l, adr x = f x) :
    Covers l adr s t ↔ Covers l f s t := by
  constructor
  · exact fun hc => hc.congr h
  · exact fun hc => hc.congr fun x hx => (h x hx).symm

/-- An interval that begins later. -/
lemma Covers.shift {n : ℕ} (h : Covers l adr 0 n) (d : ℕ) :
    Covers l (fun x => d + adr x) d (d + n) := by
  refine ⟨?_, ?_, ?_⟩
  · intro x hx
    exact ⟨Nat.le_add_right d _, Nat.add_lt_add_left (h.lt hx) d⟩
  · intro x hx x' hx' heq
    exact h.injOn hx hx' (Nat.add_left_cancel heq)
  · rintro a ⟨hd, ha⟩
    obtain ⟨x, hx, heq⟩ := h.exists_eq (Nat.zero_le (a - d)) (by omega)
    exact ⟨x, hx, by dsimp only; omega⟩

end Cover
