import MegaZK.Lib.MerklePath
import Mathlib.Tactic.Ring

/-! # Layers over given leaves

The nodes over the leaves of a tree, where the digests of a subtree keep them, and what two paths to
one node have to share. -/

namespace MerklePath

variable {D : Type*}

/-- Node `k` of layer `i` over the digests of the leaves. -/
def layer (h : D → D → D) (leaf : ℕ → D) : ℕ → ℕ → D
  | 0, k => leaf k
  | i + 1, k => h (layer h leaf i (2 * k)) (layer h leaf i (2 * k + 1))

lemma isTree_layer (h : D → D → D) (leaf : ℕ → D) (logN height : ℕ) :
    IsTree h (layer h leaf) logN height := fun _ _ _ _ => rfl

@[simp] lemma length_digestsUnder (node : ℕ → ℕ → D) (n k : ℕ) :
    (digestsUnder node n k).length = 2 * (2 ^ n - 1) := by
  induction n generalizing k with
  | zero => rfl
  | succ n ih =>
    have hpos := Nat.two_pow_pos n
    simp only [digestsUnder, List.length_append, List.length_cons, ih, pow_succ']
    omega

/-- Pair `p` of layer `i` has `2 ^ i - 1` pairs before it and `2 ^ (i + 1)` for every pair of the
layer. -/
lemma getElem?_digestsUnder (node : ℕ → ℕ → D) {n i p b : ℕ} (hi : i < n)
    (hp : p < 2 ^ (n - (i + 1))) (hb : b < 2) (k : ℕ) :
    (digestsUnder node n k)[2 * (p * 2 ^ (i + 1) + (2 ^ i - 1)) + b]? =
      some (node i (k * 2 ^ (n - i) + (2 * p + b))) := by
  induction n generalizing p k with
  | zero => omega
  | succ n ih =>
    have hpos := Nat.two_pow_pos i
    rw [digestsUnder]
    rcases Nat.lt_succ_iff_lt_or_eq.mp hi with hlt | rfl
    · have hhalf : 2 ^ (n + 1 - (i + 1)) = 2 * 2 ^ (n - (i + 1)) := by
        rw [Nat.succ_sub hlt, pow_succ']
      have hwidth : 2 ^ (n + 1 - i) = 2 * 2 ^ (n - i) := by
        rw [Nat.succ_sub hlt.le, pow_succ']
      have hpairs : 2 ^ (n - (i + 1)) * 2 ^ (i + 1) = 2 ^ n := Nat.pow_sub_mul_pow 2 hlt
      have hcols : 2 * 2 ^ (n - (i + 1)) = 2 ^ (n - i) := by
        rw [← hhalf, Nat.succ_sub_succ]
      have hpow : 2 ^ (i + 1) = 2 * 2 ^ i := pow_succ' 2 i
      by_cases hleft : p < 2 ^ (n - (i + 1))
      · -- the pair is under the left child
        have hle : (p + 1) * 2 ^ (i + 1) ≤ 2 ^ n := by
          rw [← hpairs]
          exact Nat.mul_le_mul_right _ hleft
        rw [Nat.succ_mul] at hle
        rw [List.getElem?_append_left (by rw [length_digestsUnder]; omega), ih hlt hleft, hwidth]
        congr 2
        ring
      · -- it is under the right child, after the two children
        obtain ⟨q, rfl⟩ := Nat.exists_eq_add_of_le (not_lt.mp hleft)
        have hindex : 2 * ((2 ^ (n - (i + 1)) + q) * 2 ^ (i + 1) + (2 ^ i - 1)) + b =
            2 * (2 ^ n - 1) + 2 + (2 * (q * 2 ^ (i + 1) + (2 ^ i - 1)) + b) := by
          rw [add_mul, hpairs]
          have := Nat.two_pow_pos n
          omega
        rw [hindex, List.getElem?_append_right (by rw [length_digestsUnder]; omega),
          length_digestsUnder, Nat.add_assoc (2 * (2 ^ n - 1)), Nat.add_sub_cancel_left,
          Nat.add_comm 2, List.getElem?_cons_succ, List.getElem?_cons_succ, ih hlt (by omega),
          hwidth]
        congr 2
        rw [← hcols]
        ring
    · -- the pair is that of the children
      have hp : p = 0 := by simpa using hp
      subst hp
      rw [List.getElem?_append_right (by rw [length_digestsUnder]; omega), length_digestsUnder]
      obtain rfl | rfl : b = 0 ∨ b = 1 := by omega
      · simp [mul_comm]
      · simp [mul_comm]

/-- The index that is left does not depend on the digests. -/
lemma climb_fst (h : D → D → D) (path : List D) (index : ℕ) (digest : D) :
    (climb h path index digest).1 = index >>> path.length := by
  induction path generalizing index digest with
  | nil => rfl
  | cons sibling rest ih =>
    rw [climb, ih, List.length_cons, Nat.add_comm, Nat.shiftRight_add]

/-- The pairs that are hashed on the way up. -/
def climbInputs (h : D → D → D) : List D → ℕ → D → List (D × D)
  | [], _, _ => []
  | sibling :: rest, index, digest =>
    let input := if index % 2 = 1 then (sibling, digest) else (digest, sibling)
    input :: climbInputs h rest (index >>> 1) (h input.1 input.2)

/-- Two ways up from one position to one digest start at one digest, or hash two pairs to one
digest. -/
theorem collision_of_climb_eq {h : D → D → D} {path path' : List D}
    (hlen : path.length = path'.length) {index : ℕ} {digest digest' : D}
    (hclimb : (climb h path index digest).2 = (climb h path' index digest').2) :
    (digest = digest' ∧ path = path') ∨
      ∃ (i : ℕ) (x y : D × D), (climbInputs h path index digest)[i]? = some x ∧
        (climbInputs h path' index digest')[i]? = some y ∧ x ≠ y ∧ h x.1 x.2 = h y.1 y.2 := by
  induction path generalizing path' index digest digest' with
  | nil =>
    obtain rfl : path' = [] := List.length_eq_zero_iff.mp hlen.symm
    exact .inl ⟨hclimb, rfl⟩
  | cons sibling rest ih =>
    cases path' with
    | nil => cases hlen
    | cons sibling' rest' =>
      have hparity : ∀ s d : D, (if index % 2 = 1 then h s d else h d s) =
          h (if index % 2 = 1 then (s, d) else (d, s)).1
            (if index % 2 = 1 then (s, d) else (d, s)).2 := by
        intro s d
        split_ifs <;> rfl
      simp only [climb, hparity] at hclimb
      rcases ih (Nat.succ.inj hlen) hclimb with ⟨hdigest, hrest⟩ | ⟨i, x, y, hx, hy, hne⟩
      · by_cases hinput : (if index % 2 = 1 then (sibling, digest) else (digest, sibling)) =
            if index % 2 = 1 then (sibling', digest') else (digest', sibling')
        · left
          rw [hrest]
          split_ifs at hinput with hodd
          · obtain ⟨rfl, rfl⟩ := Prod.mk.inj hinput
            exact ⟨rfl, rfl⟩
          · obtain ⟨rfl, rfl⟩ := Prod.mk.inj hinput
            exact ⟨rfl, rfl⟩
        · exact .inr ⟨0, _, _, rfl, rfl, hinput, hdigest⟩
      · exact .inr ⟨i + 1, x, y, hx, hy, hne⟩

end MerklePath
