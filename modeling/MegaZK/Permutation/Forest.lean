import MegaZK.Lib.ParentForest
import MegaZK.Witgen.Generator

/-! # Copy classes

The disjoint-set forest of `permutation_argument.rs`. A panic is `none`, and so is a loop that does
not end. -/

namespace MegaZK

open ParentForest

/-- `Forest`. -/
structure Forest where
  parents : List ℕ
  numWires : ℕ
  numRoutedWires : ℕ
  degree : ℕ
  deriving DecidableEq, Repr

namespace Forest

/-- `new`; the capacity is not part of the value. -/
def new (numWires numRoutedWires degree : ℕ) : Forest := ⟨[], numWires, numRoutedWires, degree⟩

/-- `target_index`. -/
def targetIndex (f : Forest) (t : Target) : ℕ := t.index f.numWires f.degree

/-- `add`, with its debug assertion. -/
def add (f : Forest) (t : Target) : Option Forest :=
  let index := f.parents.length
  if f.targetIndex t = index then some { f with parents := f.parents ++ [index] } else none

/-- The first loop of `find`. -/
def findRepresentative (parents : List ℕ) : ℕ → ℕ → Option ℕ
  | 0, _ => none
  | fuel + 1, representative => do
    let parent ← parents[representative]?
    if parent ≠ representative then findRepresentative parents fuel parent
    else return representative

/-- The second loop of `find`: every node of the chain is pointed at the representative. -/
def compressChain (representative : ℕ) : ℕ → List ℕ → ℕ → Option (List ℕ)
  | 0, _, _ => none
  | fuel + 1, parents, xIndex => do
    let oldParent ← parents[xIndex]?
    if oldParent ≠ xIndex then
      compressChain representative fuel (parents.set xIndex representative) oldParent
    else return parents

/-- `find`. A chain passes every node at most once. -/
def find (f : Forest) (xIndex : ℕ) : Option (ℕ × Forest) := do
  let representative ← findRepresentative f.parents f.parents.length xIndex
  let parents ← compressChain representative f.parents.length f.parents xIndex
  return (representative, { f with parents := parents })

/-- `merge`. -/
def merge (f : Forest) (tx ty : Target) : Option Forest := do
  let (xIndex, f) ← f.find (f.targetIndex tx)
  let (yIndex, f) ← f.find (f.targetIndex ty)
  if xIndex = yIndex then return f
  return { f with parents := f.parents.set yIndex xIndex }

/-- `compress_paths`. -/
def compressPaths (f : Forest) : Option Forest :=
  (List.range f.parents.length).foldlM (fun f i => (f.find i).map Prod.snd) f

/-! ### What the operations keep -/

/-- A node that is not in the forest counts as a root. -/
def parentOf (parents : List ℕ) (i : ℕ) : ℕ := parents.getD i i

/-- The parents are nodes, and `rep` gives the roots. -/
structure Represents (parents : List ℕ) (rep : ℕ → ℕ) : Prop where
  lt : ∀ i < parents.length, parentOf parents i < parents.length
  isRep : IsRep (parentOf parents) rep

variable {parents : List ℕ} {rep : ℕ → ℕ} {x y : ℕ}

lemma getElem?_eq_parentOf (hx : x < parents.length) : parents[x]? = some (parentOf parents x) := by
  simp [parentOf, hx]

lemma parentOf_set (hx : x < parents.length) (r : ℕ) :
    parentOf (parents.set x r) = Function.update (parentOf parents) x r := by
  funext i
  by_cases hi : i = x
  · subst hi
    simp [parentOf, hx]
  · simp [parentOf, Function.update_of_ne hi, List.getElem?_set_ne (Ne.symm hi)]

lemma parentOf_map (parents : List ℕ) :
    parents = (List.range parents.length).map (parentOf parents) := by
  apply List.ext_getElem
  · simp
  · intro i h1 h2
    simp [parentOf, h1]

namespace Represents

lemma reaches_lt (h : Represents parents rep) {k : ℕ}
    (hk : Reaches (parentOf parents) (rep x) x k) (hx : x < parents.length) :
    k < parents.length := by
  have hcard := hk.lt_card (S := Finset.range parents.length)
    (fun y hy => Finset.mem_range.mpr (h.lt y (Finset.mem_range.mp hy))) (Finset.mem_range.mpr hx)
  rwa [Finset.card_range] at hcard

lemma rep_lt (h : Represents parents rep) (hx : x < parents.length) :
    rep x < parents.length := by
  obtain ⟨k, hk⟩ := h.isRep x
  obtain ⟨y, hy, hreach⟩ := hk.exists_at (S := {i | i < parents.length}) h.lt hx (Nat.zero_le k)
  cases hreach
  exact hy

lemma set_rep (h : Represents parents rep) (hx : x < parents.length) :
    Represents (parents.set x (rep x)) rep := by
  constructor
  · intro i hi
    rw [List.length_set] at hi ⊢
    rw [parentOf_set hx]
    by_cases hix : i = x
    · subst hix
      rw [Function.update_self]
      exact h.rep_lt hi
    · rw [Function.update_of_ne hix]
      exact h.lt i hi
  · rw [parentOf_set hx]
    exact h.isRep.compress x

lemma link (h : Represents parents rep) (hx : x < parents.length) (hy : y < parents.length)
    (hxy : rep x ≠ rep y) :
    Represents (parents.set (rep y) (rep x)) fun z => if rep z = rep y then rep x else rep z := by
  have hylt := h.rep_lt hy
  constructor
  · intro i hi
    rw [List.length_set] at hi ⊢
    rw [parentOf_set hylt]
    by_cases hiy : i = rep y
    · subst hiy
      rw [Function.update_self]
      exact h.rep_lt hx
    · rw [Function.update_of_ne hiy]
      exact h.lt i hi
  · rw [parentOf_set hylt]
    exact h.isRep.link hxy

end Represents

/-- Path compression keeps the nodes, their roots, and what already points at its root. -/
structure Compressed (rep : ℕ → ℕ) (parents parents' : List ℕ) : Prop where
  length : parents'.length = parents.length
  represents : Represents parents' rep
  keep : ∀ i, parentOf parents i = rep i → parentOf parents' i = rep i

namespace Compressed

lemma refl (h : Represents parents rep) : Compressed rep parents parents := ⟨rfl, h, fun _ h => h⟩

lemma trans {parents' parents'' : List ℕ} (h : Compressed rep parents parents')
    (h' : Compressed rep parents' parents'') : Compressed rep parents parents'' :=
  ⟨h'.length.trans h.length, h'.represents, fun i hi => h'.keep i (h.keep i hi)⟩

lemma set_rep (h : Represents parents rep) (hx : x < parents.length) :
    Compressed rep parents (parents.set x (rep x)) := by
  refine ⟨List.length_set, h.set_rep hx, fun i hi => ?_⟩
  rw [parentOf_set hx]
  by_cases hix : i = x
  · subst hix
    rw [Function.update_self]
  · rw [Function.update_of_ne hix, hi]

end Compressed

/-! ### Each operation -/

lemma findRepresentative_eq (h : ∀ i < parents.length, parentOf parents i < parents.length)
    {r k fuel : ℕ} (hk : Reaches (parentOf parents) r x k) (hx : x < parents.length)
    (hfuel : k < fuel) : findRepresentative parents fuel x = some r := by
  induction hk generalizing fuel with
  | root hroot =>
    obtain ⟨fuel, rfl⟩ := Nat.exists_eq_succ_of_ne_zero hfuel.ne'
    simp [findRepresentative, getElem?_eq_parentOf hx, hroot]
  | @step x k hne _ ih =>
    obtain ⟨fuel, rfl⟩ := Nat.exists_eq_succ_of_ne_zero (Nat.ne_zero_of_lt hfuel)
    simp [findRepresentative, getElem?_eq_parentOf hx, hne,
      ih (h x hx) (Nat.lt_of_succ_lt_succ hfuel)]

lemma compressChain_spec (h : Represents parents rep) {r k fuel : ℕ}
    (hk : Reaches (parentOf parents) r x k) (hx : x < parents.length) (hfuel : k < fuel) :
    ∃ parents', compressChain r fuel parents x = some parents' ∧
      Compressed rep parents parents' ∧ parentOf parents' x = r := by
  induction k generalizing parents x fuel with
  | zero =>
    obtain ⟨fuel, rfl⟩ := Nat.exists_eq_succ_of_ne_zero hfuel.ne'
    cases hk with
    | root hroot =>
      exact ⟨parents, by simp [compressChain, getElem?_eq_parentOf hx, hroot], .refl h, hroot⟩
  | succ k ih =>
    obtain ⟨fuel, rfl⟩ := Nat.exists_eq_succ_of_ne_zero (Nat.ne_zero_of_lt hfuel)
    have hrep := h.isRep.rep_eq hk
    cases hk with
    | step hne hk' =>
      have hset := Compressed.set_rep h hx
      rw [hrep] at hset
      have hup : Reaches (parentOf (parents.set x r)) r (parentOf parents x) k := by
        rw [parentOf_set hx]
        exact (Reaches.step hne hk').update_below hk' (Nat.lt_succ_self k)
      obtain ⟨parents', hrun, hcomp, -⟩ := ih hset.represents hup
        (by rw [List.length_set]; exact h.lt x hx) (Nat.lt_of_succ_lt_succ hfuel)
      refine ⟨parents', ?_, hset.trans hcomp, ?_⟩
      · simp [compressChain, getElem?_eq_parentOf hx, hne, hrun]
      · rw [hcomp.keep x (by rw [parentOf_set hx, Function.update_self, hrep]), hrep]

lemma find_spec {f : Forest} (h : Represents f.parents rep) (hx : x < f.parents.length) :
    ∃ parents', f.find x = some (rep x, { f with parents := parents' }) ∧
      Compressed rep f.parents parents' ∧ parentOf parents' x = rep x := by
  obtain ⟨k, hk⟩ := h.isRep x
  have hfuel := h.reaches_lt hk hx
  obtain ⟨parents', hrun, hcomp, hparent⟩ := compressChain_spec h hk hx hfuel
  exact ⟨parents', by simp [find, findRepresentative_eq h.lt hk hx hfuel, hrun], hcomp, hparent⟩

/-- `merge` adds the pair to those that the roots classify. -/
lemma merge_spec {f : Forest} {pairs : List (ℕ × ℕ)} (h : Represents f.parents rep)
    (hclass : Classifies rep pairs) {tx ty : Target} (hx : f.targetIndex tx < f.parents.length)
    (hy : f.targetIndex ty < f.parents.length) :
    ∃ parents' rep', f.merge tx ty = some { f with parents := parents' } ∧
      parents'.length = f.parents.length ∧ Represents parents' rep' ∧
      Classifies rep' (pairs ++ [(f.targetIndex tx, f.targetIndex ty)]) := by
  obtain ⟨px, hfx, hcx, -⟩ := find_spec h hx
  have hy' : f.targetIndex ty < px.length := by rwa [hcx.length]
  obtain ⟨py, hfy, hcy, -⟩ := find_spec (f := { f with parents := px }) hcx.represents hy'
  have hlen : py.length = f.parents.length := hcy.length.trans hcx.length
  have hty : ({ f with parents := px } : Forest).targetIndex ty = f.targetIndex ty := rfl
  by_cases hxy : rep (f.targetIndex tx) = rep (f.targetIndex ty)
  · refine ⟨py, rep, ?_, hlen, hcy.represents, hclass.same hxy⟩
    simp [merge, hfx, hty, hfy, hxy]
  · refine ⟨_, _, ?_, ?_, hcy.represents.link (hlen ▸ hx) (hlen ▸ hy) hxy, hclass.join⟩
    · simp [merge, hfx, hty, hfy, hxy]
    · rw [List.length_set, hlen]

lemma foldlM_find_spec (l : List ℕ) {f : Forest} (h : Represents f.parents rep)
    (hl : ∀ i ∈ l, i < f.parents.length) :
    ∃ parents', l.foldlM (fun f i => (f.find i).map Prod.snd) f =
        some { f with parents := parents' } ∧
      Compressed rep f.parents parents' ∧ ∀ i ∈ l, parentOf parents' i = rep i := by
  induction l generalizing f with
  | nil => exact ⟨f.parents, rfl, .refl h, by simp⟩
  | cons x l ih =>
    obtain ⟨p, hfind, hcomp, hparent⟩ := find_spec h (hl x (by simp))
    obtain ⟨p', hrun, hcomp', hall⟩ := ih (f := { f with parents := p }) hcomp.represents
      (fun i hi => hcomp.length ▸ hl i (by simp [hi]))
    refine ⟨p', ?_, hcomp.trans hcomp', ?_⟩
    · rw [List.foldlM_cons, hfind]
      exact hrun
    · intro i hi
      rcases List.mem_cons.mp hi with rfl | hi
      · exact hcomp'.keep i hparent
      · exact hall i hi

/-- After `compress_paths` every node points at its root. -/
lemma compressPaths_spec {f : Forest} (h : Represents f.parents rep) :
    f.compressPaths =
      some { f with parents := (List.range f.parents.length).map rep } := by
  obtain ⟨p, hrun, hcomp, hall⟩ := foldlM_find_spec (List.range f.parents.length) h
    (fun i hi => List.mem_range.mp hi)
  have hp : p = (List.range f.parents.length).map rep := by
    rw [parentOf_map p, hcomp.length]
    exact List.map_congr_left hall
  rw [compressPaths, hrun, hp]

end Forest

end MegaZK
