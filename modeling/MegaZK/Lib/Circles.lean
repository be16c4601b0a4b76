import Mathlib.Data.Fintype.Card
import Mathlib.Data.List.Basic
import Mathlib.Logic.Function.Iterate

/-! # Circles

A function that runs through each list of a partition in a circle, from an entry to the next and
from the last one to the first. -/

namespace Circles

variable {α : Type*}

/-- `f` leads from each entry of the list to the next one, and from the last to the first. -/
def Rotates (f : α → α) (l : List α) : Prop :=
  ∀ n u, l[n]? = some u → l[(n + 1) % l.length]? = some (f u)

variable {f : α → α} {l : List α} {u v : α}

lemma Rotates.iterate (h : Rotates f l) {n : ℕ} (hn : l[n]? = some u) (k : ℕ) :
    l[(n + k) % l.length]? = some (f^[k] u) := by
  induction k with
  | zero =>
    obtain ⟨hlt, -⟩ := List.getElem?_eq_some_iff.mp hn
    rw [Nat.add_zero, Nat.mod_eq_of_lt hlt, hn]
    rfl
  | succ k ih =>
    rw [Function.iterate_succ_apply', ← h _ _ ih, Nat.mod_add_mod, Nat.add_assoc]

lemma Rotates.mem (h : Rotates f l) (hu : u ∈ l) : f u ∈ l := by
  obtain ⟨n, hn⟩ := List.mem_iff_getElem?.mp hu
  exact List.mem_of_getElem? (h n u hn)

/-- After a whole round every entry is back. -/
lemma Rotates.iterate_length (h : Rotates f l) (hu : u ∈ l) : f^[l.length] u = u := by
  obtain ⟨n, hn⟩ := List.mem_iff_getElem?.mp hu
  obtain ⟨hlt, -⟩ := List.getElem?_eq_some_iff.mp hn
  have hround := h.iterate hn l.length
  rw [Nat.add_mod_right, Nat.mod_eq_of_lt hlt, hn] at hround
  exact (Option.some.inj hround).symm

/-- What can be reached from an entry is the list. -/
lemma Rotates.exists_iterate_iff (h : Rotates f l) (hu : u ∈ l) :
    (∃ k, f^[k] u = v) ↔ v ∈ l := by
  obtain ⟨n, hn⟩ := List.mem_iff_getElem?.mp hu
  obtain ⟨hlt, -⟩ := List.getElem?_eq_some_iff.mp hn
  constructor
  · rintro ⟨k, rfl⟩
    exact List.mem_of_getElem? (h.iterate hn k)
  · intro hv
    obtain ⟨m, hm⟩ := List.mem_iff_getElem?.mp hv
    obtain ⟨hmlt, -⟩ := List.getElem?_eq_some_iff.mp hm
    refine ⟨l.length - n + m, ?_⟩
    have hround := h.iterate hn (l.length - n + m)
    have hsum : n + (l.length - n + m) = l.length + m := by omega
    rw [hsum, Nat.add_mod_left, Nat.mod_eq_of_lt hmlt, hm] at hround
    exact (Option.some.inj hround).symm

/-- `f` runs through all lists, of which no two have an entry in common. -/
structure RotatesAll (f : α → α) (partition : List (List α)) : Prop where
  rotates : ∀ l ∈ partition, Rotates f l
  unique : ∀ l ∈ partition, ∀ l' ∈ partition, ∀ u ∈ l, u ∈ l' → l = l'

variable {partition : List (List α)}

lemma RotatesAll.injOn (h : RotatesAll f partition) :
    Set.InjOn f {u | u ∈ partition.flatten} := by
  intro u hu v hv huv
  obtain ⟨l, hl, hul⟩ := List.mem_flatten.mp hu
  obtain ⟨l', hl', hvl⟩ := List.mem_flatten.mp hv
  obtain rfl := h.unique l hl l' hl' (f u) ((h.rotates l hl).mem hul)
    (huv ▸ (h.rotates l' hl').mem hvl)
  obtain ⟨k, hk⟩ := Nat.exists_eq_succ_of_ne_zero (List.length_pos_of_mem hul).ne'
  rw [← (h.rotates l hl).iterate_length hul, ← (h.rotates l hl).iterate_length hvl, hk,
    Function.iterate_succ_apply, Function.iterate_succ_apply, huv]

end Circles
