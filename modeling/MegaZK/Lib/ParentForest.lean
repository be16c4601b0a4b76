import Mathlib.Data.Fintype.Card
import Mathlib.Data.List.Basic
import Mathlib.Logic.Function.Basic
import Mathlib.Logic.Relation

/-! # Parent pointers

A function that sends every element to its parent, a root to itself. Pointing an element at its own
root changes no root, and pointing one root at another joins their classes. -/

namespace ParentForest

variable {α : Type*}

/-- From `x` the pointers lead to the root `r` in `k` steps. -/
inductive Reaches (parent : α → α) (r : α) : α → ℕ → Prop
  | root (h : parent r = r) : Reaches parent r r 0
  | step {x : α} {k : ℕ} (hx : parent x ≠ x) (h : Reaches parent r (parent x) k) :
      Reaches parent r x (k + 1)

variable {parent : α → α} {r s x : α} {j k : ℕ}

lemma Reaches.isRoot (h : Reaches parent r x k) : parent r = r := by
  induction h with
  | root h => exact h
  | step _ _ ih => exact ih

/-- There is one way up. -/
lemma Reaches.unique (h : Reaches parent r x k) (h' : Reaches parent s x j) : r = s ∧ k = j := by
  induction h generalizing j with
  | root hr =>
    cases h' with
    | root => exact ⟨rfl, rfl⟩
    | step hx => exact absurd hr hx
  | step hx _ ih =>
    cases h' with
    | root hs => exact absurd hs hx
    | step _ h' =>
      obtain ⟨rfl, rfl⟩ := ih h'
      exact ⟨rfl, rfl⟩

/-- Every distance up to that of `x` occurs above `x`. -/
lemma Reaches.exists_at {S : Set α} (hS : ∀ y ∈ S, parent y ∈ S) (h : Reaches parent r x k)
    (hx : x ∈ S) (hj : j ≤ k) : ∃ y ∈ S, Reaches parent r y j := by
  induction h with
  | root hr =>
    obtain rfl := Nat.le_zero.mp hj
    exact ⟨r, hx, .root hr⟩
  | @step x k hne h ih =>
    rcases Nat.le_succ_iff.mp hj with hj | rfl
    · exact ih (hS x hx) hj
    · exact ⟨x, hx, .step hne h⟩

/-- The way up passes every element at most once. -/
lemma Reaches.lt_card {S : Finset α} (hS : ∀ y ∈ S, parent y ∈ S) (h : Reaches parent r x k)
    (hx : x ∈ S) : k < S.card := by
  have hat : ∀ i : Fin (k + 1), ∃ y : S, Reaches parent r y i := by
    intro i
    obtain ⟨y, hy, hreach⟩ := h.exists_at (S := ↑S) hS hx (Nat.lt_succ_iff.mp i.isLt)
    exact ⟨⟨y, hy⟩, hreach⟩
  choose at' hat' using hat
  have hinj : Function.Injective at' := by
    intro i i' heq
    have hi := hat' i
    rw [heq] at hi
    exact Fin.ext (hi.unique (hat' i')).2
  have hcard := Fintype.card_le_of_injective at' hinj
  simp only [Fintype.card_fin, Fintype.card_coe] at hcard
  exact hcard

section Update

variable [DecidableEq α]

/-- Path compression changes no root. -/
lemma Reaches.compress {z : α} (hx : Reaches parent r x k) (h : Reaches parent s z j) :
    ∃ i, Reaches (Function.update parent x r) s z i := by
  induction h with
  | root hs =>
    refine ⟨0, .root ?_⟩
    by_cases hsx : s = x
    · subst hsx
      rw [Function.update_self]
      exact (hx.unique (.root hs)).1
    · rw [Function.update_of_ne hsx, hs]
  | @step z j hz h ih =>
    obtain ⟨i, hi⟩ := ih
    by_cases hzx : z = x
    · subst hzx
      obtain rfl := (hx.unique (.step hz h)).1
      have hne : r ≠ z := fun heq => hz (heq ▸ hx.isRoot)
      have hroot : Reaches (Function.update parent z r) r r 0 :=
        .root (by rw [Function.update_of_ne hne, hx.isRoot])
      exact ⟨1, .step (by rwa [Function.update_self]) (by rwa [Function.update_self])⟩
    · have hupd : Function.update parent x r z = parent z := Function.update_of_ne hzx _ _
      exact ⟨i + 1, .step (by rwa [hupd]) (by rwa [hupd])⟩

/-- Nothing above an element leads back to it. -/
lemma Reaches.update_below {z v : α} (hx : Reaches parent r x k) (h : Reaches parent r z j)
    (hjk : j < k) : Reaches (Function.update parent x v) r z j := by
  have hne : ∀ {z i}, Reaches parent r z i → i < k → Function.update parent x v z = parent z := by
    intro z i hz hik
    refine Function.update_of_ne ?_ _ _
    rintro rfl
    exact hik.ne (hz.unique hx).2
  induction h with
  | root hr => exact .root (by rw [hne (.root hr) hjk, hr])
  | step hz h ih =>
    have hupd := hne (.step hz h) hjk
    exact .step (by rwa [hupd]) (by rw [hupd]; exact ih (Nat.lt_of_succ_lt hjk))

/-- A root that is pointed at another root hands its class over. -/
lemma Reaches.link {a b z : α} (ha : parent a = a) (hb : parent b = b) (hab : a ≠ b)
    (h : Reaches parent s z j) :
    ∃ i, Reaches (Function.update parent b a) (if s = b then a else s) z i := by
  have haroot : Reaches (Function.update parent b a) a a 0 :=
    .root (by rw [Function.update_of_ne hab, ha])
  induction h with
  | root hs =>
    split_ifs with hsb
    · subst hsb
      exact ⟨1, .step (by rwa [Function.update_self]) (by rwa [Function.update_self])⟩
    · exact ⟨0, .root (by rw [Function.update_of_ne hsb, hs])⟩
  | @step z j hz h ih =>
    obtain ⟨i, hi⟩ := ih
    have hupd : Function.update parent b a z = parent z := by
      refine Function.update_of_ne ?_ _ _
      rintro rfl
      exact hz hb
    exact ⟨i + 1, .step (by rwa [hupd]) (by rwa [hupd])⟩

end Update

/-! ### Representatives -/

/-- `rep` sends every element to its root. -/
def IsRep (parent rep : α → α) : Prop := ∀ x, ∃ k, Reaches parent (rep x) x k

variable {rep : α → α}

namespace IsRep

lemma rep_eq (h : IsRep parent rep) (hx : Reaches parent r x k) : rep x = r := by
  obtain ⟨j, hj⟩ := h x
  exact (hj.unique hx).1

lemma parent_rep (h : IsRep parent rep) (x : α) : parent (rep x) = rep x := by
  obtain ⟨k, hk⟩ := h x
  exact hk.isRoot

lemma rep_rep (h : IsRep parent rep) (x : α) : rep (rep x) = rep x :=
  h.rep_eq (.root (h.parent_rep x))

lemma compress [DecidableEq α] (h : IsRep parent rep) (x : α) :
    IsRep (Function.update parent x (rep x)) rep := by
  intro z
  obtain ⟨k, hk⟩ := h x
  obtain ⟨j, hj⟩ := h z
  exact hk.compress hj

lemma link [DecidableEq α] (h : IsRep parent rep) {x y : α} (hxy : rep x ≠ rep y) :
    IsRep (Function.update parent (rep y) (rep x))
      fun z => if rep z = rep y then rep x else rep z := by
  intro z
  obtain ⟨j, hj⟩ := h z
  exact hj.link (h.parent_rep x) (h.parent_rep y) hxy

end IsRep

/-! ### The classes of a list of pairs -/

/-- `rep` takes one value on each class of the equivalence that the pairs generate. -/
def Classifies {β : Type*} (rep : α → β) (pairs : List (α × α)) : Prop :=
  ∀ x y, rep x = rep y ↔ Relation.EqvGen (fun a b => (a, b) ∈ pairs) x y

lemma classifies_nil : Classifies (id : α → α) [] := by
  intro x y
  constructor
  · rintro rfl
    exact .refl _
  · intro h
    induction h with
    | rel _ _ h => cases h
    | refl => rfl
    | symm _ _ _ ih => exact ih.symm
    | trans _ _ _ _ _ ih ih' => exact ih.trans ih'

variable {pairs : List (α × α)} {x y : α}

lemma eqvGen_append {a b : α} (h : Relation.EqvGen (fun a b => (a, b) ∈ pairs) a b)
    (more : List (α × α)) : Relation.EqvGen (fun a b => (a, b) ∈ pairs ++ more) a b :=
  h.mono fun _ _ h => List.mem_append_left _ h

/-- A pair within one class changes nothing. -/
lemma Classifies.same {β : Type*} {rep : α → β} (h : Classifies rep pairs) (hxy : rep x = rep y) :
    Classifies rep (pairs ++ [(x, y)]) := by
  intro u v
  refine (h u v).trans ⟨fun huv => eqvGen_append huv _, fun huv => ?_⟩
  rw [← h]
  induction huv with
  | rel a b hab =>
    rcases List.mem_append.mp hab with hab | hab
    · exact (h a b).mpr (.rel _ _ hab)
    · cases List.mem_singleton.mp hab
      exact hxy
  | refl => rfl
  | symm _ _ _ ih => exact ih.symm
  | trans _ _ _ _ _ ih ih' => exact ih.trans ih'

/-- A pair of two classes joins them. -/
lemma Classifies.join [DecidableEq α] (h : Classifies rep pairs) :
    Classifies (fun z => if rep z = rep y then rep x else rep z) (pairs ++ [(x, y)]) := by
  have hnew : Relation.EqvGen (fun a b => (a, b) ∈ pairs ++ [(x, y)]) x y := .rel _ _ (by simp)
  -- an element and the one that represents its class in the join
  have hto : ∀ u, rep u = rep y → Relation.EqvGen (fun a b => (a, b) ∈ pairs ++ [(x, y)]) u x :=
    fun u hu => (eqvGen_append ((h u y).mp hu) _).trans _ _ _ hnew.symm
  intro u v
  constructor
  · intro huv
    simp only at huv
    split_ifs at huv with hu hv hv
    · exact (hto u hu).trans _ _ _ (hto v hv).symm
    · exact (hto u hu).trans _ _ _ (eqvGen_append ((h x v).mp huv) _)
    · exact (eqvGen_append ((h u x).mp huv) _).trans _ _ _ (hto v hv).symm
    · exact eqvGen_append ((h u v).mp huv) _
  · intro huv
    induction huv with
    | rel a b hab =>
      rcases List.mem_append.mp hab with hab | hab
      · simp only [(h a b).mpr (.rel _ _ hab)]
      · cases List.mem_singleton.mp hab
        simp
    | refl => rfl
    | symm _ _ _ ih => exact ih.symm
    | trans _ _ _ _ _ ih ih' => exact ih.trans ih'

end ParentForest
