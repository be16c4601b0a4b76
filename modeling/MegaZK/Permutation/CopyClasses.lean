import MegaZK.Lib.Fold
import MegaZK.Permutation.Forest

/-! # The forest of a circuit

What `sigma_vecs` builds from the gates, the virtual targets and the copy constraints of the
circuit builder. -/

namespace MegaZK

open ParentForest

/-- The target is a routable wire of a gate or a virtual target. -/
def Target.Routable (numRoutedWires degree numVirtual : ℕ) : Target → Prop
  | .wire row column => row < degree ∧ column < numRoutedWires
  | .virtualTarget index => index < numVirtual

instance (r d v : ℕ) : (t : Target) → Decidable (t.Routable r d v)
  | .wire _ _ => inferInstanceAs (Decidable (_ ∧ _))
  | .virtualTarget _ => inferInstanceAs (Decidable (_ < _))

/-- The row of a cell, in an array of rows of `n` cells. -/
lemma mul_add_div_of_lt {n a i : ℕ} (hi : i < n) : (a * n + i) / n = a := by
  rw [Nat.mul_comm, Nat.mul_add_div (Nat.zero_lt_of_lt hi), Nat.div_eq_of_lt hi, Nat.add_zero]

/-- What `sigma_vecs` reads of the circuit builder, whose gates have been padded to a power of two.
Targets are handed out by the builder, and `connect` takes routable ones only. -/
structure RoutedCircuit where
  numWires : ℕ
  numRoutedWires : ℕ
  degreeBits : ℕ
  virtualTargetIndex : ℕ
  copyConstraints : List (Target × Target)
  routed_le : numRoutedWires ≤ numWires
  routable : ∀ p ∈ copyConstraints,
    p.1.Routable numRoutedWires (2 ^ degreeBits) virtualTargetIndex ∧
      p.2.Routable numRoutedWires (2 ^ degreeBits) virtualTargetIndex

namespace RoutedCircuit

variable (b : RoutedCircuit)

/-- The number of gates. -/
def degree : ℕ := 2 ^ b.degreeBits

/-- The forest that `sigma_vecs` builds. -/
def forest : Option Forest := do
  let forest ← (List.range b.degree).foldlM
    (fun forest gate => (List.range b.numWires).foldlM
      (fun forest input => forest.add (.wire gate input)) forest)
    (Forest.new b.numWires b.numRoutedWires b.degree)
  let forest ← (List.range b.virtualTargetIndex).foldlM
    (fun forest index => forest.add (.virtualTarget index)) forest
  let forest ← b.copyConstraints.foldlM (fun forest p => forest.merge p.1 p.2) forest
  forest.compressPaths

/-- The nodes of the forest. -/
def numTargets : ℕ := b.degree * b.numWires + b.virtualTargetIndex

/-- The index of a target of the circuit. -/
def index (t : Target) : ℕ := t.index b.numWires b.degree

/-- The target is a wire of a gate, routable or not, or a virtual target. -/
def HasTarget (t : Target) : Prop := t.Routable b.numWires b.degree b.virtualTargetIndex

instance (t : Target) : Decidable (b.HasTarget t) :=
  inferInstanceAs (Decidable (t.Routable _ _ _))

/-- Two targets are connected by copy constraints. -/
def Connected : Target → Target → Prop :=
  Relation.EqvGen fun t u => (t, u) ∈ b.copyConstraints

/-! ### Targets and nodes -/

/-- The target of a node. -/
def targetAt (i : ℕ) : Target :=
  if i < b.degree * b.numWires then .wire (i / b.numWires) (i % b.numWires)
  else .virtualTarget (i - b.degree * b.numWires)

variable {b} {t u : Target}

lemma HasTarget.of_routable (h : t.Routable b.numRoutedWires b.degree b.virtualTargetIndex) :
    b.HasTarget t := by
  cases t with
  | wire row column => exact ⟨h.1, h.2.trans_le b.routed_le⟩
  | virtualTarget index => exact h

lemma wire_index_lt {row column : ℕ} (h : b.HasTarget (.wire row column)) :
    b.index (.wire row column) < b.degree * b.numWires := by
  calc row * b.numWires + column < row * b.numWires + b.numWires := Nat.add_lt_add_left h.2 _
    _ = (row + 1) * b.numWires := (Nat.succ_mul _ _).symm
    _ ≤ b.degree * b.numWires := Nat.mul_le_mul_right _ h.1

lemma HasTarget.index_lt (h : b.HasTarget t) : b.index t < b.numTargets := by
  cases t with
  | wire row column => exact (wire_index_lt h).trans_le (Nat.le_add_right _ _)
  | virtualTarget index => exact Nat.add_lt_add_left h _

lemma HasTarget.targetAt_index (h : b.HasTarget t) : b.targetAt (b.index t) = t := by
  cases t with
  | wire row column =>
    have hcol : column < b.numWires := h.2
    rw [targetAt, if_pos (wire_index_lt h), index, Target.index, mul_add_div_of_lt hcol,
      Nat.mul_add_mod_of_lt hcol]
  | virtualTarget index =>
    have hge : ¬ b.index (.virtualTarget index) < b.degree * b.numWires :=
      Nat.not_lt.mpr (Nat.le_add_right _ _)
    rw [targetAt, if_neg hge, RoutedCircuit.index, Target.index, Nat.add_sub_cancel_left]

lemma hasTarget_of_mem {p : Target × Target} (hp : p ∈ b.copyConstraints) :
    b.HasTarget p.1 ∧ b.HasTarget p.2 :=
  ⟨.of_routable (b.routable p hp).1, .of_routable (b.routable p hp).2⟩

variable (b)

/-- The copy constraints as pairs of nodes. -/
def nodePairs : List (ℕ × ℕ) := b.copyConstraints.map fun p => (b.index p.1, b.index p.2)

variable {b}

lemma eqvGen_nodePairs_iff (ht : b.HasTarget t) (hu : b.HasTarget u) :
    Relation.EqvGen (fun i j => (i, j) ∈ b.nodePairs) (b.index t) (b.index u) ↔
      b.Connected t u := by
  constructor
  · intro h
    have hat : ∀ i j, Relation.EqvGen (fun i j => (i, j) ∈ b.nodePairs) i j →
        b.Connected (b.targetAt i) (b.targetAt j) := by
      intro i j h
      induction h with
      | rel i j hij =>
        obtain ⟨p, hp, heq⟩ := List.mem_map.mp hij
        cases heq
        rw [(hasTarget_of_mem hp).1.targetAt_index, (hasTarget_of_mem hp).2.targetAt_index]
        exact .rel _ _ hp
      | refl => exact .refl _
      | symm _ _ _ ih => exact ih.symm
      | trans _ _ _ _ _ ih ih' => exact ih.trans _ _ _ ih'
    have hconn := hat _ _ h
    rwa [ht.targetAt_index, hu.targetAt_index] at hconn
  · intro h
    clear ht hu
    induction h with
    | rel t u htu => exact .rel _ _ (List.mem_map.mpr ⟨(t, u), htu, rfl⟩)
    | refl => exact .refl _
    | symm _ _ _ ih => exact ih.symm
    | trans _ _ _ _ _ ih ih' => exact ih.trans _ _ _ ih'

/-! ### The run -/

section Run

variable (numWires numRoutedWires degree : ℕ)

lemma foldlM_add (l : List ℕ) (target : ℕ → Target) {n : ℕ}
    (h : ∀ i (hi : i < l.length), (target l[i]).index numWires degree = n + i) :
    l.foldlM (fun forest i => Forest.add forest (target i))
        ⟨List.range n, numWires, numRoutedWires, degree⟩ =
      some ⟨List.range (n + l.length), numWires, numRoutedWires, degree⟩ := by
  induction l generalizing n with
  | nil => rfl
  | cons x l ih =>
    have hadd : Forest.add ⟨List.range n, numWires, numRoutedWires, degree⟩ (target x) =
        some ⟨List.range (n + 1), numWires, numRoutedWires, degree⟩ := by
      have hx : (target x).index numWires degree = n := h 0 (Nat.zero_lt_succ _)
      simp [Forest.add, Forest.targetIndex, hx, List.range_succ]
    rw [List.foldlM_cons, hadd, Option.bind_eq_bind, Option.bind_some, ih]
    · rw [List.length_cons, Nat.add_assoc, Nat.add_comm 1]
    · intro i hi
      have hsucc := h (i + 1) (Nat.succ_lt_succ hi)
      rw [Nat.add_assoc, Nat.add_comm 1]
      exact hsucc

/-- All wires of the first gates. -/
lemma foldlM_addGates (n : ℕ) :
    (List.range n).foldlM
        (fun forest gate => (List.range numWires).foldlM
          (fun forest input => forest.add (.wire gate input)) forest)
        (Forest.new numWires numRoutedWires degree) =
      some ⟨List.range (n * numWires), numWires, numRoutedWires, degree⟩ := by
  induction n with
  | zero => simp [Forest.new]
  | succ n ih =>
    have hrow := foldlM_add numWires numRoutedWires degree (n := n * numWires)
      (List.range numWires) (Target.wire n) (by
        intro i hi
        rw [List.getElem_range, Target.index])
    rw [List.range_succ, List.foldlM_append, ih, Option.bind_eq_bind, Option.bind_some,
      List.foldlM_cons, hrow, List.length_range, ← Nat.succ_mul]
    rfl

/-- Before any merge every target is its own root. -/
lemma represents_range (n : ℕ) : Forest.Represents (List.range n) id := by
  have hparent : Forest.parentOf (List.range n) = id := by
    funext i
    by_cases hi : i < n <;> simp [Forest.parentOf, hi]
  constructor
  · intro i hi
    rwa [hparent]
  · rw [hparent]
    exact fun i => ⟨0, .root rfl⟩

/-- After the merges the roots classify the targets by the pairs merged. -/
lemma foldlM_merge_spec (l : List (Target × Target)) {f : Forest} {rep : ℕ → ℕ}
    {pairs : List (ℕ × ℕ)} (h : Forest.Represents f.parents rep) (hclass : Classifies rep pairs)
    (hl : ∀ p ∈ l, f.targetIndex p.1 < f.parents.length ∧ f.targetIndex p.2 < f.parents.length) :
    ∃ parents' rep', l.foldlM (fun forest p => Forest.merge forest p.1 p.2) f =
        some { f with parents := parents' } ∧
      parents'.length = f.parents.length ∧ Forest.Represents parents' rep' ∧
      Classifies rep' (pairs ++ l.map fun p => (f.targetIndex p.1, f.targetIndex p.2)) := by
  induction l generalizing f rep pairs with
  | nil => exact ⟨f.parents, rep, rfl, rfl, h, by simpa using hclass⟩
  | cons p l ih =>
    obtain ⟨hx, hy⟩ := hl p (by simp)
    obtain ⟨q, rep', hmerge, hlen, hq, hclass'⟩ := Forest.merge_spec h hclass hx hy
    obtain ⟨q', rep'', hrun, hlen', hq', hclass''⟩ := ih (f := { f with parents := q }) hq hclass'
      (fun p' hp' => hlen ▸ hl p' (by simp [hp']))
    refine ⟨q', rep'', ?_, hlen'.trans hlen, hq', ?_⟩
    · rw [List.foldlM_cons, hmerge]
      exact hrun
    · rw [List.map_cons, List.append_cons]
      exact hclass''

end Run

/-- The forest that a builder ends up with: every node points at the root of its class. -/
structure Classified (b : RoutedCircuit) (rep : ℕ → ℕ) : Prop where
  lt : ∀ i < b.numTargets, rep i < b.numTargets
  rep_rep : ∀ i, rep (rep i) = rep i
  classifies : Classifies rep b.nodePairs

lemma forest_spec (b : RoutedCircuit) :
    ∃ rep, b.Classified rep ∧ b.forest =
      some ⟨(List.range b.numTargets).map rep, b.numWires, b.numRoutedWires, b.degree⟩ := by
  have hgates := foldlM_addGates b.numWires b.numRoutedWires b.degree b.degree
  have hvirtual := foldlM_add b.numWires b.numRoutedWires b.degree
    (n := b.degree * b.numWires) (List.range b.virtualTargetIndex)
    Target.virtualTarget (by
      intro i hi
      rw [List.getElem_range, Target.index])
  rw [List.length_range] at hvirtual
  obtain ⟨parents, rep, hrun, hlen, hrep, hclass⟩ := foldlM_merge_spec b.copyConstraints
    (f := ⟨List.range b.numTargets, b.numWires, b.numRoutedWires, b.degree⟩)
    (represents_range b.numTargets) classifies_nil (by
      intro p hp
      rw [List.length_range]
      exact ⟨(hasTarget_of_mem hp).1.index_lt, (hasTarget_of_mem hp).2.index_lt⟩)
  rw [List.length_range] at hlen
  refine ⟨rep, ⟨fun i hi => ?_, hrep.isRep.rep_rep, hclass⟩, ?_⟩
  · rw [← hlen]
    exact hrep.rep_lt (by rwa [hlen])
  · have hpaths := Forest.compressPaths_spec
      (f := ⟨parents, b.numWires, b.numRoutedWires, b.degree⟩) hrep
    have hstart : b.degree * b.numWires + b.virtualTargetIndex = b.numTargets := rfl
    simp only [forest, hgates, Option.bind_eq_bind, Option.bind_some, hvirtual, hstart, hrun,
      hpaths, hlen]

/-- The parents that the builder publishes as `representative_map` name the classes of the copy
constraints: two targets have one representative exactly when the constraints connect them, and a
representative represents itself. -/
theorem parents_eq_iff_connected (b : RoutedCircuit) :
    ∃ f, b.forest = some f ∧ f.parents.length = b.numTargets ∧
      (∀ i r : ℕ, f.parents[i]? = some r → f.parents[r]? = some r) ∧
      ∀ t u, b.HasTarget t → b.HasTarget u →
        (f.parents[b.index t]? = f.parents[b.index u]? ↔ b.Connected t u) := by
  obtain ⟨rep, hclass, hforest⟩ := b.forest_spec
  refine ⟨_, hforest, by simp, ?_, ?_⟩
  · intro i r hr
    obtain ⟨j, hj, rfl⟩ := List.mem_map.mp (List.mem_of_getElem? hr)
    simp [hclass.lt j (List.mem_range.mp hj), hclass.rep_rep]
  · intro t u ht hu
    rw [← eqvGen_nodePairs_iff ht hu, ← hclass.classifies]
    simp [ht.index_lt, hu.index_lt]

end RoutedCircuit

end MegaZK
