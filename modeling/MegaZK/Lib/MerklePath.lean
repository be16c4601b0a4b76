import Mathlib.Data.Nat.Bitwise
import Mathlib.Tactic.Common

/-! # Merkle paths

The nodes of a binary tree by layer and position, and the climb from a node to the layer above the
last of its siblings. -/

namespace MerklePath

variable {D : Type*} {h : D → D → D}

/-- The loop over the siblings of a proof: the index that is left and the digest that is reached. -/
def climb (h : D → D → D) : List D → ℕ → D → ℕ × D
  | [], index, digest => (index, digest)
  | sibling :: rest, index, digest =>
    climb h rest (index >>> 1) (if index % 2 = 1 then h sibling digest else h digest sibling)

/-- `height` layers over `2 ^ logN` leaves. -/
def IsTree (h : D → D → D) (node : ℕ → ℕ → D) (logN height : ℕ) : Prop :=
  ∀ i < height, ∀ k < 2 ^ (logN - (i + 1)),
    node (i + 1) k = h (node i (2 * k)) (node i (2 * k + 1))

/-- The digests under a node: those under its left child, its children, and those under its right
child. -/
def digestsUnder (node : ℕ → ℕ → D) : ℕ → ℕ → List D
  | 0, _ => []
  | n + 1, k =>
    digestsUnder node n (2 * k) ++
      node n (2 * k) :: node n (2 * k + 1) :: digestsUnder node n (2 * k + 1)

lemma xor_one_eq (k b : ℕ) (hb : b < 2) : (2 * k + b) ^^^ 1 = 2 * k + (1 - b) := by
  obtain rfl | rfl : b = 0 ∨ b = 1 := by omega
  · rw [Nat.xor_one_of_even ⟨k, by omega⟩]
  · rw [Nat.xor_one_of_odd ⟨k, rfl⟩]
    rfl

variable {node : ℕ → ℕ → D} {logN height : ℕ}

/-- A node and its sibling hash to the node above. -/
lemma IsTree.parent (htree : IsTree h node logN height) {i : ℕ} (hi : i < height) {k : ℕ}
    (hk : k >>> 1 < 2 ^ (logN - (i + 1))) :
    (if k % 2 = 1 then h (node i (k ^^^ 1)) (node i k) else h (node i k) (node i (k ^^^ 1))) =
      node (i + 1) (k >>> 1) := by
  have hsplit : k = 2 * (k >>> 1) + k % 2 := by
    rw [Nat.shiftRight_one]
    omega
  have hxor : k ^^^ 1 = 2 * (k >>> 1) + (1 - k % 2) := by
    have := xor_one_eq (k >>> 1) (k % 2) (Nat.mod_lt _ Nat.two_pos)
    rwa [← hsplit] at this
  rw [htree i hi (k >>> 1) hk, hxor]
  rcases Nat.mod_two_eq_zero_or_one k with hmod | hmod
  · rw [hmod, Nat.add_zero] at hsplit
    simp [hmod, ← hsplit]
  · rw [hmod] at hsplit
    simp [hmod, ← hsplit]

lemma shiftRight_lt {x i : ℕ} (hx : x < 2 ^ logN) : x >>> i < 2 ^ (logN - i) := by
  rw [Nat.shiftRight_eq_div_pow]
  apply Nat.div_lt_of_lt_mul
  apply hx.trans_le
  rw [← pow_add]
  exact Nat.pow_le_pow_right Nat.two_pos (by omega)

/-- The siblings of the nodes above `x` lead from its node in layer `i` to the node `n` layers
above. -/
lemma IsTree.climb_from (htree : IsTree h node logN height) {x : ℕ} (hx : x < 2 ^ logN) (n i : ℕ)
    (hi : i + n ≤ height) :
    climb h ((List.range n).map fun j => node (i + j) ((x >>> (i + j)) ^^^ 1)) (x >>> i)
      (node i (x >>> i)) = (x >>> (i + n), node (i + n) (x >>> (i + n))) := by
  induction n generalizing i with
  | zero => rfl
  | succ n ih =>
    have hup : x >>> i >>> 1 = x >>> (i + 1) := (Nat.shiftRight_add x i 1).symm
    have hparent := htree.parent (i := i) (by omega) (k := x >>> i)
      (by rw [hup]; exact shiftRight_lt hx)
    have hnext := ih (i + 1) (by omega)
    simp only [Nat.add_assoc i 1, Nat.add_comm 1] at hnext
    rw [List.range_succ_eq_map, List.map_cons, climb, Nat.add_zero, hparent, hup, List.map_map]
    exact hnext

/-- The path of leaf `x` leads to its node in the top layer. -/
theorem IsTree.climb_path (htree : IsTree h node logN height) {x : ℕ} (hx : x < 2 ^ logN) :
    climb h ((List.range height).map fun i => node i ((x >>> i) ^^^ 1)) x (node 0 x) =
      (x >>> height, node height (x >>> height)) := by
  simpa using htree.climb_from hx height 0 (by omega)

end MerklePath
