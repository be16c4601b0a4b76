import MegaZK.Lib.Butterfly
import MegaZK.Lib.Scatter

/-! # Decimation in time

The transform of `2 ^ (s + L)` values that have been permuted before the first stage. After `s`
stages a block of `2 ^ s` values is the transform of the coefficients that are `2 ^ L` apart, and a
stage puts two blocks together. -/

namespace Butterfly

open Finset Scatter

variable {R : Type*} [CommRing R]

/-- Block `b` of `2 ^ s` values after `s` stages. -/
def block (ω : R) (rev : ℕ → ℕ → ℕ) (L s : ℕ) (c : ℕ → R) (b t : ℕ) : R :=
  ∑ k ∈ range (2 ^ s), c (k * 2 ^ L + rev b L) * ω ^ (2 ^ L * (t * k))

section Block

variable {ω : R} {rev : ℕ → ℕ → ℕ} {L s b : ℕ} {c : ℕ → R}

/-- The halves of a block. -/
lemma block_succ (hrev : Numbering rev) (hb : b < 2 ^ L) (t : ℕ) :
    block ω rev L (s + 1) c b t = block ω rev (L + 1) s c (2 * b) t +
      ω ^ (2 ^ L * t) * block ω rev (L + 1) s c (2 * b + 1) t := by
  rw [block, pow_succ', sum_range_two_mul, block, block, mul_sum, ← sum_add_distrib,
    hrev.low b L hb, hrev.high b L hb]
  refine sum_congr rfl fun k _ => ?_
  have heven : 2 * k * 2 ^ L + rev b L = k * 2 ^ (L + 1) + rev b L := by ring
  have hodd : (2 * k + 1) * 2 ^ L + rev b L = k * 2 ^ (L + 1) + (rev b L + 2 ^ L) := by ring
  rw [heven, hodd]
  ring

/-- The second half of the values differs by the sign of the root. -/
lemma block_succ_add (hrev : Numbering rev) (hω : ω ^ 2 ^ (L + s) = -1) (hb : b < 2 ^ L) (t : ℕ) :
    block ω rev L (s + 1) c b (t + 2 ^ s) = block ω rev (L + 1) s c (2 * b) t -
      ω ^ (2 ^ L * t) * block ω rev (L + 1) s c (2 * b + 1) t := by
  have hone : ω ^ (2 ^ L * 2 ^ s) = -1 := by rw [← pow_add, hω]
  have hshift : block ω rev (L + 1) s c (2 * b) (t + 2 ^ s) =
        block ω rev (L + 1) s c (2 * b) t ∧
      block ω rev (L + 1) s c (2 * b + 1) (t + 2 ^ s) =
        block ω rev (L + 1) s c (2 * b + 1) t := by
    have hpow : ∀ k, ω ^ (2 ^ (L + 1) * ((t + 2 ^ s) * k)) = ω ^ (2 ^ (L + 1) * (t * k)) := by
      intro k
      have hsplit : 2 ^ (L + 1) * ((t + 2 ^ s) * k) =
          2 ^ (L + 1) * (t * k) + 2 ^ L * 2 ^ s * (2 * k) := by ring
      rw [hsplit, pow_add, pow_mul _ (2 ^ L * 2 ^ s), hone, (even_two_mul k).neg_one_pow, mul_one]
    constructor
    · simp only [block, hpow]
    · simp only [block, hpow]
  rw [block_succ hrev hb, hshift.1, hshift.2, mul_add, pow_add, hone]
  ring

end Block

/-! ### The butterflies of a stage -/

/-- A butterfly on position `p.2` of the block that starts at `p.1`. -/
def butterfly (half : ℕ) (omega : ℕ → R) (v : ℕ → R) (p : ℕ × ℕ) : ℕ → R :=
  let t := omega p.2 * v (p.1 + half + p.2)
  let u := v (p.1 + p.2)
  Function.update (Function.update v (p.1 + p.2) (u + t)) (p.1 + half + p.2) (u - t)

section Stage

variable {half : ℕ} {omega : ℕ → R} {l : List (ℕ × ℕ)}

lemma foldl_butterfly_of_ne (v : ℕ → R) {x : ℕ}
    (h : ∀ p ∈ l, x ≠ p.1 + p.2 ∧ x ≠ p.1 + half + p.2) :
    l.foldl (butterfly half omega) v x = v x := by
  induction l generalizing v with
  | nil => rfl
  | cons p l ih =>
    obtain ⟨⟨hlow, hhigh⟩, h⟩ := List.forall_mem_cons.mp h
    rw [List.foldl_cons, ih _ h, butterfly, Function.update_of_ne hhigh, Function.update_of_ne hlow]

/-- Butterflies on different cells do not see each other. -/
lemma foldl_butterfly (v : ℕ → R) (hnodup : l.Nodup)
    (hlow : ∀ p ∈ l, ∀ q ∈ l, p.1 + p.2 = q.1 + q.2 → p = q)
    (hne : ∀ p ∈ l, ∀ q ∈ l, p.1 + p.2 ≠ q.1 + half + q.2) :
    ∀ p ∈ l,
      l.foldl (butterfly half omega) v (p.1 + p.2) =
          v (p.1 + p.2) + omega p.2 * v (p.1 + half + p.2) ∧
        l.foldl (butterfly half omega) v (p.1 + half + p.2) =
          v (p.1 + p.2) - omega p.2 * v (p.1 + half + p.2) := by
  induction l generalizing v with
  | nil => simp
  | cons q l ih =>
    obtain ⟨hq, hnodup⟩ := List.nodup_cons.mp hnodup
    have hmem : ∀ {p}, p ∈ l → p ∈ q :: l := List.mem_cons_of_mem q
    have hhigh : ∀ p ∈ q :: l, ∀ p' ∈ q :: l, p.1 + half + p.2 = p'.1 + half + p'.2 → p = p' :=
      fun p hp p' hp' h => hlow p hp p' hp' (by omega)
    have hself : q ∈ q :: l := List.mem_cons_self
    have hother : ∀ p ∈ l, p ≠ q := fun p hp heq => hq (heq ▸ hp)
    intro p hp
    rcases List.mem_cons.mp hp with rfl | hp
    · rw [List.foldl_cons, foldl_butterfly_of_ne, foldl_butterfly_of_ne]
      · have hcells : p.1 + p.2 ≠ p.1 + half + p.2 := hne p hself p hself
        simp only [butterfly, Function.update_self, Function.update_of_ne hcells, and_self]
      · intro p' hp'
        exact ⟨fun h => hne p' (hmem hp') p hself h.symm,
          fun h => hother p' hp' (hhigh p' (hmem hp') p hself h.symm)⟩
      · intro p' hp'
        exact ⟨fun h => hother p' hp' (hlow p' (hmem hp') p hself h.symm),
          hne p hself p' (hmem hp')⟩
    · have hlow_ne : p.1 + p.2 ≠ q.1 + q.2 := fun h => hother p hp (hlow p (hmem hp) q hself h)
      have hhigh_ne : p.1 + half + p.2 ≠ q.1 + half + q.2 :=
        fun h => hother p hp (hhigh p (hmem hp) q hself h)
      have hrest := ih (butterfly half omega v q) hnodup
        (fun p hp p' hp' => hlow p (hmem hp) p' (hmem hp'))
        (fun p hp p' hp' => hne p (hmem hp) p' (hmem hp')) p hp
      have hkept : butterfly half omega v q (p.1 + p.2) = v (p.1 + p.2) := by
        rw [butterfly, Function.update_of_ne (hne p (hmem hp) q hself),
          Function.update_of_ne hlow_ne]
      have hkept' : butterfly half omega v q (p.1 + half + p.2) = v (p.1 + half + p.2) := by
        rw [butterfly, Function.update_of_ne hhigh_ne,
          Function.update_of_ne (hne q hself p (hmem hp)).symm]
      rwa [hkept, hkept', ← List.foldl_cons] at hrest

/-- The butterflies of a stage on blocks of `2 * half` cells. -/
def stagePairs (blocks half : ℕ) : List (ℕ × ℕ) :=
  (List.range blocks).flatMap fun b => (List.range half).map fun j => (b * (2 * half), j)

lemma mem_stagePairs {blocks half : ℕ} {p : ℕ × ℕ} :
    p ∈ stagePairs blocks half ↔ ∃ b < blocks, ∃ j < half, (b * (2 * half), j) = p := by
  simp [stagePairs]

lemma nodup_stagePairs (blocks half : ℕ) : (stagePairs blocks half).Nodup := by
  rw [stagePairs, List.nodup_flatMap]
  refine ⟨fun b _ => (List.nodup_range).map fun i j h => (Prod.mk.inj h).2, ?_⟩
  refine List.nodup_range.imp_of_mem fun {b b'} _ _ hne => ?_
  intro p hp hp'
  obtain ⟨j, hj, rfl⟩ := List.mem_map.mp hp
  obtain ⟨j', hj', heq⟩ := List.mem_map.mp hp'
  have hj := List.mem_range.mp hj
  obtain ⟨hstart, -⟩ := Prod.mk.inj heq
  exact hne (Nat.eq_of_mul_eq_mul_right (by omega) hstart.symm)

/-- A stage, cell by cell. -/
lemma foldl_stagePairs (v : ℕ → R) {blocks b t : ℕ} (hb : b < blocks) (ht : t < half) :
    (stagePairs blocks half).foldl (butterfly half omega) v (b * (2 * half) + t) =
        v (b * (2 * half) + t) + omega t * v (b * (2 * half) + half + t) ∧
      (stagePairs blocks half).foldl (butterfly half omega) v (b * (2 * half) + half + t) =
        v (b * (2 * half) + t) - omega t * v (b * (2 * half) + half + t) := by
  refine foldl_butterfly v (nodup_stagePairs blocks half) ?_ ?_ (b * (2 * half), t)
    (mem_stagePairs.mpr ⟨b, hb, t, ht, rfl⟩)
  · intro p hp q hq heq
    obtain ⟨b, -, j, hj, rfl⟩ := mem_stagePairs.mp hp
    obtain ⟨b', -, j', hj', rfl⟩ := mem_stagePairs.mp hq
    obtain ⟨rfl, rfl⟩ := stride_inj (by omega : j < 2 * half) (by omega : j' < 2 * half)
      (by rw [add_comm j, add_comm j']; exact heq)
    rfl
  · intro p hp q hq heq
    obtain ⟨b, -, j, hj, rfl⟩ := mem_stagePairs.mp hp
    obtain ⟨b', -, j', hj', rfl⟩ := mem_stagePairs.mp hq
    obtain ⟨hcell, -⟩ := stride_inj (by omega : j < 2 * half) (by omega : half + j' < 2 * half)
      (by rw [add_comm j, add_comm (half + j'), ← add_assoc]; exact heq)
    omega

end Stage

end Butterfly
