import Mathlib.Data.List.Prime
import Mathlib.NumberTheory.LucasPrimality

/-! # Primes by Lucas's test

A list of primes in which the factors of every `p - 1` stand further down, so that the test of an
entry rests on the entries after it. -/

namespace Pratt

/-- `a ^ n` modulo `p`, by squaring, for `n < 2 ^ bits`. -/
def powMod (p : ℕ) : ℕ → ℕ → ℕ → ℕ
  | 0, _, _ => 1 % p
  | bits + 1, a, n =>
    let half := powMod p bits (a * a % p) (n / 2)
    if n % 2 = 0 then half else a * half % p

lemma powMod_eq (p : ℕ) {bits a n : ℕ} (hn : n < 2 ^ bits) : powMod p bits a n = a ^ n % p := by
  induction bits generalizing a n with
  | zero =>
    obtain rfl : n = 0 := by simpa using hn
    rfl
  | succ bits ih =>
    have hhalf : powMod p bits (a * a % p) (n / 2) = a ^ (2 * (n / 2)) % p := by
      rw [ih (by rw [pow_succ] at hn; omega), ← Nat.pow_mod, ← pow_two, ← pow_mul]
    rw [powMod, hhalf]
    split_ifs with heven
    · rw [Nat.mul_div_cancel' (Nat.dvd_of_mod_eq_zero heven)]
    · rw [Nat.mul_mod_mod, ← pow_succ', show 2 * (n / 2) + 1 = n by omega]

lemma natCast_pow_eq_one_iff {p : ℕ} (hp : 1 < p) (a n : ℕ) :
    (a : ZMod p) ^ n = 1 ↔ a ^ n % p = 1 := by
  rw [← Nat.cast_pow, ← Nat.cast_one, ZMod.natCast_eq_natCast_iff', Nat.mod_eq_of_lt hp]

/-- A number, a generator of its multiplicative group, and the primes of `prime - 1` with their
multiplicities. -/
structure Entry where
  prime : ℕ
  generator : ℕ
  factors : List ℕ

/-- Lucas's test of one entry over the primes that are known. -/
def Entry.Passes (bits : ℕ) (known : List ℕ) (e : Entry) : Prop :=
  1 < e.prime ∧ e.prime ≤ 2 ^ bits ∧ (∀ q ∈ e.factors, q ∈ known) ∧
    e.factors.prod = e.prime - 1 ∧ powMod e.prime bits e.generator (e.prime - 1) = 1 ∧
    ∀ q ∈ e.factors, powMod e.prime bits e.generator ((e.prime - 1) / q) ≠ 1

instance (bits : ℕ) (known : List ℕ) (e : Entry) : Decidable (e.Passes bits known) :=
  inferInstanceAs (Decidable (_ ∧ _))

lemma Entry.Passes.prime_prime {bits : ℕ} {known : List ℕ} {e : Entry}
    (h : e.Passes bits known) (hknown : ∀ q ∈ known, q.Prime) : e.prime.Prime := by
  obtain ⟨hone, hbits, hmem, hprod, hfull, hpart⟩ := h
  have hlt : ∀ n ≤ e.prime - 1, n < 2 ^ bits := by omega
  apply lucas_primality e.prime (e.generator : ZMod e.prime)
  · rw [natCast_pow_eq_one_iff hone, ← powMod_eq _ (hlt _ le_rfl)]
    exact hfull
  · intro q hq hdvd
    rw [← hprod] at hdvd
    obtain ⟨q', hq', hdvd'⟩ := (Prime.dvd_prod_iff hq.prime).mp hdvd
    obtain rfl := (Nat.prime_dvd_prime_iff_eq hq (hknown q' (hmem q' hq'))).mp hdvd'
    rw [Ne, natCast_pow_eq_one_iff hone, ← powMod_eq _ (hlt _ (Nat.div_le_self _ _))]
    exact hpart q hq'

/-- Every entry passes over the small primes and the entries after it. -/
def Certified (bits : ℕ) (small : List ℕ) : List Entry → Prop
  | [] => True
  | e :: es => e.Passes bits (es.map Entry.prime ++ small) ∧ Certified bits small es

instance decidableCertified (bits : ℕ) (small : List ℕ) :
    (es : List Entry) → Decidable (Certified bits small es)
  | [] => .isTrue trivial
  | _ :: es =>
    have := decidableCertified bits small es
    inferInstanceAs (Decidable (_ ∧ _))

theorem Certified.prime {bits : ℕ} {small : List ℕ} {es : List Entry}
    (h : Certified bits small es) (hsmall : ∀ q ∈ small, q.Prime) :
    ∀ e ∈ es, e.prime.Prime := by
  induction es with
  | nil => simp
  | cons e es ih =>
    have htail := ih h.2
    intro e' he'
    cases he' with
    | head =>
      apply h.1.prime_prime
      intro q hq
      rcases List.mem_append.mp hq with hq | hq
      · obtain ⟨e'', he'', rfl⟩ := List.mem_map.mp hq
        exact htail e'' he''
      · exact hsmall q hq
    | tail _ he' => exact htail e' he'

end Pratt
