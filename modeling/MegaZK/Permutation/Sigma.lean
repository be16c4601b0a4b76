import MegaZK.Lib.Circles
import MegaZK.Lib.Grouping
import MegaZK.Lib.Scatter
import MegaZK.PartialProducts.Host
import MegaZK.Permutation.CopyClasses

/-! # The permutation of the routed wires

`wire_partition` and the sigma polynomials: each routed wire is sent to the next one of its copy
class, and the last one to the first. -/

namespace MegaZK

open Circles Grouping

variable {F : Type} [Field F]

/-- `Wire`. -/
structure Wire where
  row : ℕ
  column : ℕ
  deriving DecidableEq, Repr, Inhabited

def Wire.target (w : Wire) : Target := .wire w.row w.column

/-- `wire_partition` up to `into_values`. -/
def Forest.wirePartition (f : Forest) : Option (List (ℕ × List Wire)) :=
  (List.range f.degree).foldlM
    (fun partition row => (List.range f.numRoutedWires).foldlM
      (fun partition column => do
        let w : Wire := ⟨row, column⟩
        let xParent ← f.parents[f.targetIndex w.target]?
        return push xParent w partition) partition) []

/-- The order in which `into_values` yields the values of a hash map. -/
structure IntoValues where
  values : List (ℕ × List Wire) → List (List Wire)
  perm : ∀ entries, (values entries).Perm (entries.map Prod.snd)

/-- `WirePartition`. -/
structure WirePartition where
  partition : List (List Wire)

namespace WirePartition

variable (p : WirePartition)

/-- The map `neighbors` of `get_sigma_map`. -/
def neighbors : Wire → Option Wire :=
  p.partition.foldl
    (fun neighbors subset => (List.range subset.length).foldl
      (fun neighbors n => Function.update neighbors (subset.getD n default)
        (some (subset.getD ((n + 1) % subset.length) default))) neighbors) fun _ => none

/-- The wires in the order of `sigma`, column by column. -/
def sigmaWires (degree numRoutedWires : ℕ) : List Wire :=
  (List.range numRoutedWires).flatMap fun column => (List.range degree).map fun row => ⟨row, column⟩

/-- `get_sigma_map`. -/
def getSigmaMap (degree numRoutedWires : ℕ) : Option (List ℕ) :=
  (sigmaWires degree numRoutedWires).mapM fun wire => do
    let neighbor ← p.neighbors wire
    return neighbor.column * degree + neighbor.row

/-- `get_sigma_polys`. -/
def getSigmaPolys (degreeLog : ℕ) (kIs subgroup : List F) : Option (List (List F)) := do
  let degree := 2 ^ degreeLog
  let sigma ← p.getSigmaMap degree kIs.length
  (chunks degree sigma).mapM fun chunk => chunk.mapM fun x => do
    let k ← kIs[x / degree]?
    let s ← subgroup[x % degree]?
    return k * s

end WirePartition

/-- `sigma_vecs`. -/
def RoutedCircuit.sigmaVecs (b : RoutedCircuit) (order : IntoValues) (kIs subgroup : List F) :
    Option (List (List F) × Forest) := do
  let forest ← b.forest
  let entries ← forest.wirePartition
  let wirePartition : WirePartition := ⟨order.values entries⟩
  let polys ← wirePartition.getSigmaPolys b.degreeBits kIs subgroup
  return (polys, forest)

/-! ### Neighbors -/

namespace WirePartition

variable {p : WirePartition}

/-- The entries that `neighbors` is built from. -/
def places (p : WirePartition) : List (List Wire × ℕ) :=
  p.partition.flatMap fun subset => (List.range subset.length).map fun n => (subset, n)

lemma neighbors_eq_scatter (p : WirePartition) :
    p.neighbors = Scatter.scatter p.places (fun e => e.1.getD e.2 default)
      (fun e => some (e.1.getD ((e.2 + 1) % e.1.length) default)) fun _ => none := by
  simp only [neighbors, Scatter.scatter, places, List.foldl_flatMap, List.foldl_map]

lemma map_places (p : WirePartition) :
    p.places.map (fun e => e.1.getD e.2 default) = p.partition.flatten := by
  have hsubset : ∀ subset : List Wire,
      (List.range subset.length).map (fun n => subset.getD n default) = subset := by
    intro subset
    apply List.ext_getElem
    · simp
    · intro n h1 h2
      simp [h2]
  simp only [places, List.map_flatMap, List.map_map, Function.comp_def, hsubset]
  exact List.flatMap_id'

/-- With no wire in two places, the neighbor of an entry is the next one. -/
lemma neighbors_eq (hnodup : p.partition.flatten.Nodup) {subset : List Wire}
    (hsubset : subset ∈ p.partition) {n : ℕ} {w : Wire} (hn : subset[n]? = some w) :
    p.neighbors w = subset[(n + 1) % subset.length]? := by
  obtain ⟨hlt, rfl⟩ := List.getElem?_eq_some_iff.mp hn
  have hmem : (subset, n) ∈ p.places :=
    List.mem_flatMap.mpr ⟨subset, hsubset, List.mem_map.mpr ⟨n, List.mem_range.mpr hlt, rfl⟩⟩
  have hmod : (n + 1) % subset.length < subset.length := Nat.mod_lt _ (Nat.zero_lt_of_lt hlt)
  have hat := Scatter.scatter_of_mem (fun e : List Wire × ℕ => e.1.getD e.2 default)
    (fun e => some (e.1.getD ((e.2 + 1) % e.1.length) default)) (fun _ => none) hmem
    (fun e he heq => List.inj_on_of_nodup_map (by rwa [map_places]) he hmem heq)
  rw [neighbors_eq_scatter]
  simpa [hlt, hmod] using hat

/-- The next wire of the class. -/
def next (p : WirePartition) (w : Wire) : Wire := (p.neighbors w).getD default

lemma neighbors_eq_next (hnodup : p.partition.flatten.Nodup) {w : Wire}
    (hw : w ∈ p.partition.flatten) : p.neighbors w = some (p.next w) := by
  obtain ⟨subset, hsubset, hw⟩ := List.mem_flatten.mp hw
  obtain ⟨n, hn⟩ := List.mem_iff_getElem?.mp hw
  obtain ⟨hlt, -⟩ := List.getElem?_eq_some_iff.mp hn
  have hmod : (n + 1) % subset.length < subset.length := Nat.mod_lt _ (Nat.zero_lt_of_lt hlt)
  rw [next, neighbors_eq hnodup hsubset hn, List.getElem?_eq_getElem hmod, Option.getD_some]

lemma rotatesAll_next (hnodup : p.partition.flatten.Nodup) : RotatesAll p.next p.partition := by
  constructor
  · intro subset hsubset n w hn
    rw [← neighbors_eq_next hnodup (List.mem_flatten.mpr ⟨subset, hsubset,
      List.mem_of_getElem? hn⟩), neighbors_eq hnodup hsubset hn]
  · intro l hl l' hl' w hw hw'
    by_contra hne
    have hsymm : Std.Symm (List.Disjoint (α := Wire)) := ⟨fun _ _ => List.Disjoint.symm⟩
    exact (List.nodup_flatten.mp hnodup).2.forall hl hl' hne hw hw'

lemma neighbors_eq_none {w : Wire} (hw : w ∉ p.partition.flatten) : p.neighbors w = none := by
  rw [neighbors_eq_scatter]
  apply Scatter.scatter_of_forall_ne
  intro e he hdst
  rw [← map_places] at hw
  exact hw (List.mem_map.mpr ⟨e, he, hdst⟩)

/-- The neighbors do not depend on the order of the classes. -/
lemma neighbors_perm {p' : WirePartition} (hnodup : p.partition.flatten.Nodup)
    (hperm : p.partition.Perm p'.partition) : p.neighbors = p'.neighbors := by
  have hflat := hperm.flatten
  funext w
  by_cases hw : w ∈ p.partition.flatten
  · obtain ⟨subset, hsubset, hw⟩ := List.mem_flatten.mp hw
    obtain ⟨n, hn⟩ := List.mem_iff_getElem?.mp hw
    rw [neighbors_eq hnodup hsubset hn,
      neighbors_eq (hflat.nodup_iff.mp hnodup) (hperm.mem_iff.mp hsubset) hn]
  · rw [neighbors_eq_none hw, neighbors_eq_none fun h => hw (hflat.mem_iff.mpr h)]

/-! ### The columns -/

/-- A table, row after row. -/
lemma flatMap_range_map {α : Type} (g : ℕ → ℕ → α) (m n : ℕ) :
    (List.range n).flatMap (fun a => (List.range m).map (g a)) =
      (List.range (n * m)).map fun x => g (x / m) (x % m) := by
  induction n with
  | zero => simp
  | succ n ih =>
    rw [List.range_succ, List.flatMap_append, ih, Nat.succ_mul, List.range_add, List.map_append,
      List.map_map, List.flatMap_singleton]
    congr 1
    apply List.map_congr_left
    intro x hx
    have hx := List.mem_range.mp hx
    rw [Function.comp_apply, mul_add_div_of_lt hx, Nat.mul_add_mod_of_lt hx]

lemma sigmaWires_eq (degree numRoutedWires : ℕ) :
    sigmaWires degree numRoutedWires =
      (List.range (numRoutedWires * degree)).map fun x => ⟨x % degree, x / degree⟩ :=
  flatMap_range_map (fun column row => Wire.mk row column) degree numRoutedWires

lemma mem_sigmaWires {degree numRoutedWires : ℕ} {w : Wire} :
    w ∈ sigmaWires degree numRoutedWires ↔ w.row < degree ∧ w.column < numRoutedWires := by
  cases w
  simp [sigmaWires, and_comm]

/-- Column `c` of the sigmas holds the names of the next wires. -/
lemma getSigmaPolys_eq {degreeLog : ℕ} (kIs : List F) {subgroup : List F}
    (hsubgroup : subgroup.length = 2 ^ degreeLog) (next : Wire → Wire)
    (hnext : ∀ w ∈ sigmaWires (2 ^ degreeLog) kIs.length, p.neighbors w = some (next w) ∧
      next w ∈ sigmaWires (2 ^ degreeLog) kIs.length) :
    p.getSigmaPolys degreeLog kIs subgroup =
      some ((List.range kIs.length).map fun column => (List.range (2 ^ degreeLog)).map fun row =>
        kIs.getD (next ⟨row, column⟩).column 0 * subgroup.getD (next ⟨row, column⟩).row 0) := by
  have hdegree : 0 < 2 ^ degreeLog := Nat.two_pow_pos _
  have hsigma : p.getSigmaMap (2 ^ degreeLog) kIs.length =
      some ((List.range (kIs.length * 2 ^ degreeLog)).map fun x =>
        (next ⟨x % 2 ^ degreeLog, x / 2 ^ degreeLog⟩).column * 2 ^ degreeLog +
          (next ⟨x % 2 ^ degreeLog, x / 2 ^ degreeLog⟩).row) := by
    rw [getSigmaMap, Fold.mapM_eq_some_map (g := fun w => (next w).column * 2 ^ degreeLog +
      (next w).row), sigmaWires_eq, List.map_map]
    · rfl
    · intro w hw
      rw [(hnext w hw).1]
      rfl
  simp only [getSigmaPolys, hsigma, Option.bind_eq_bind, Option.bind_some]
  rw [chunks_map_range _ hdegree, List.mapM_map]
  apply Fold.mapM_eq_some_map
  intro column hcolumn
  rw [Function.comp_apply, List.mapM_map]
  apply Fold.mapM_eq_some_map
  intro row hrow
  have hrow := List.mem_range.mp hrow
  have hw : (⟨row, column⟩ : Wire) ∈ sigmaWires (2 ^ degreeLog) kIs.length :=
    mem_sigmaWires.mpr ⟨hrow, List.mem_range.mp hcolumn⟩
  obtain ⟨hnrow, hncol⟩ := mem_sigmaWires.mp (hnext _ hw).2
  rw [Function.comp_apply, Nat.mul_add_mod_of_lt hrow, mul_add_div_of_lt hrow,
    Nat.mul_add_mod_of_lt hnrow, mul_add_div_of_lt hnrow, List.getElem?_eq_getElem hncol,
    List.getElem?_eq_getElem (by rwa [hsubgroup])]
  simp [hncol, hsubgroup, hnrow]

end WirePartition

/-! ### The classes of the routed wires -/

namespace RoutedCircuit

variable (b : RoutedCircuit)

/-- The routed wires, row by row. -/
def routedWires : List Wire :=
  (List.range b.degree).flatMap fun row => (List.range b.numRoutedWires).map fun column =>
    ⟨row, column⟩

variable {b}

@[simp] lemma mem_routedWires {w : Wire} :
    w ∈ b.routedWires ↔ w.row < b.degree ∧ w.column < b.numRoutedWires := by
  cases w
  simp [routedWires]

lemma hasTarget_of_mem_routedWires {w : Wire} (hw : w ∈ b.routedWires) : b.HasTarget w.target := by
  obtain ⟨hrow, hcolumn⟩ := mem_routedWires.mp hw
  exact ⟨hrow, hcolumn.trans_le b.routed_le⟩

lemma nodup_routedWires : b.routedWires.Nodup := by
  rw [routedWires, List.nodup_flatMap]
  refine ⟨fun row _ => List.nodup_range.map fun c c' h => congrArg Wire.column h, ?_⟩
  refine List.nodup_range.imp fun {row row'} hne w hw hw' => hne ?_
  obtain ⟨c, -, rfl⟩ := List.mem_map.mp hw
  obtain ⟨c', -, h⟩ := List.mem_map.mp hw'
  exact (congrArg Wire.row h).symm

lemma wirePartition_eq {rep : ℕ → ℕ} :
    Forest.wirePartition
        ⟨(List.range b.numTargets).map rep, b.numWires, b.numRoutedWires, b.degree⟩ =
      some (b.routedWires.foldl (fun entries w => push (rep (b.index w.target)) w entries) []) := by
  rw [routedWires, List.foldl_flatMap]
  apply Fold.foldlM_eq_some_foldl
  intro entries row hrow
  rw [List.foldl_map]
  apply Fold.foldlM_eq_some_foldl
  intro entries column hcolumn
  have hlt := (hasTarget_of_mem_routedWires (b := b) (w := ⟨row, column⟩)
    (mem_routedWires.mpr ⟨List.mem_range.mp hrow, List.mem_range.mp hcolumn⟩)).index_lt
  have hindex : Forest.targetIndex ⟨(List.range b.numTargets).map rep, b.numWires,
      b.numRoutedWires, b.degree⟩ (Wire.target ⟨row, column⟩) =
        b.index (Wire.target ⟨row, column⟩) := rfl
  simp [hindex, hlt]

lemma groups_routedWires (b : RoutedCircuit) (rep : ℕ → ℕ) :
    Groups (fun w : Wire => rep (b.index w.target)) b.routedWires
      (b.routedWires.foldl (fun entries w => push (rep (b.index w.target)) w entries) []) :=
  groups_foldl _ _

/-- The hash map may yield the classes in any order. -/
lemma sigmaVecs_order (b : RoutedCircuit) (order order' : IntoValues) (kIs subgroup : List F) :
    b.sigmaVecs order kIs subgroup = b.sigmaVecs order' kIs subgroup := by
  obtain ⟨rep, -, hforest⟩ := b.forest_spec
  have hgroups := b.groups_routedWires rep
  set entries := b.routedWires.foldl (fun entries w => push (rep (b.index w.target)) w entries) []
    with hentries
  have hnodup : (order.values entries).flatten.Nodup :=
    ((order.perm entries).flatten.trans hgroups.perm).nodup_iff.mpr nodup_routedWires
  have hneighbors : (WirePartition.mk (order.values entries)).neighbors =
      (WirePartition.mk (order'.values entries)).neighbors :=
    WirePartition.neighbors_perm hnodup ((order.perm entries).trans (order'.perm entries).symm)
  simp only [sigmaVecs, hforest, Option.bind_eq_bind, Option.bind_some, wirePartition_eq,
    ← hentries, WirePartition.getSigmaPolys, WirePartition.getSigmaMap, hneighbors]

/-- `next` permutes the routed wires, and its cycles are the classes of the copy constraints. -/
structure FollowsCopies (b : RoutedCircuit) (next : Wire → Wire) : Prop where
  mem : ∀ w ∈ b.routedWires, next w ∈ b.routedWires
  injOn : Set.InjOn next {w | w ∈ b.routedWires}
  orbit : ∀ u ∈ b.routedWires, ∀ v ∈ b.routedWires,
    (∃ k, next^[k] u = v) ↔ b.Connected u.target v.target

/-- The column of the sigmas, whose entry for a wire is the name of the next wire. -/
def sigmaColumn (b : RoutedCircuit) (kIs subgroup : List F) (next : Wire → Wire) (column : ℕ) :
    List F :=
  (List.range b.degree).map fun row =>
    kIs.getD (next ⟨row, column⟩).column 0 * subgroup.getD (next ⟨row, column⟩).row 0

/-- The sigma columns name, for every routed wire, the next wire of its copy class, whatever the
order in which the hash map yields the classes. -/
lemma sigmaVecs_eq (b : RoutedCircuit) (order : IntoValues) (kIs subgroup : List F)
    (hkIs : kIs.length = b.numRoutedWires) (hsubgroup : subgroup.length = 2 ^ b.degreeBits) :
    ∃ next f, b.FollowsCopies next ∧ b.forest = some f ∧ b.sigmaVecs order kIs subgroup =
      some ((List.range b.numRoutedWires).map (b.sigmaColumn kIs subgroup next), f) := by
  obtain ⟨rep, hclass, hforest⟩ := b.forest_spec
  have hgroups := b.groups_routedWires rep
  set entries := b.routedWires.foldl (fun entries w => push (rep (b.index w.target)) w entries) []
    with hentries
  set p : WirePartition := ⟨order.values entries⟩ with hp
  have hflat : p.partition.flatten.Perm b.routedWires :=
    (order.perm entries).flatten.trans hgroups.perm
  have hnodup : p.partition.flatten.Nodup := hflat.nodup_iff.mpr nodup_routedWires
  have hrot := WirePartition.rotatesAll_next hnodup
  have hmem : ∀ w ∈ b.routedWires, p.next w ∈ b.routedWires := by
    intro w hw
    obtain ⟨l, hl, hwl⟩ := List.mem_flatten.mp (hflat.mem_iff.mpr hw)
    exact hflat.mem_iff.mp (List.mem_flatten.mpr ⟨l, hl, (hrot.rotates l hl).mem hwl⟩)
  refine ⟨p.next, _, ⟨hmem, ?_, ?_⟩, hforest, ?_⟩
  · intro u hu v hv
    exact hrot.injOn (hflat.mem_iff.mpr hu) (hflat.mem_iff.mpr hv)
  · intro u hu v hv
    obtain ⟨l, hl, hul⟩ := List.mem_flatten.mp (hflat.mem_iff.mpr hu)
    rw [(hrot.rotates l hl).exists_iterate_iff hul,
      hgroups.mem_iff ((order.perm entries).mem_iff.mp hl) hul hv, hclass.classifies]
    exact eqvGen_nodePairs_iff (hasTarget_of_mem_routedWires hu) (hasTarget_of_mem_routedWires hv)
  · have hpolys := WirePartition.getSigmaPolys_eq (p := p) kIs hsubgroup p.next (by
      intro w hw
      rw [WirePartition.mem_sigmaWires, hkIs] at hw
      have hw' := mem_routedWires.mpr hw
      refine ⟨WirePartition.neighbors_eq_next hnodup (hflat.mem_iff.mpr hw'), ?_⟩
      rw [WirePartition.mem_sigmaWires, hkIs]
      exact mem_routedWires.mp (hmem w hw'))
    rw [hkIs] at hpolys
    simp only [sigmaVecs, hforest, Option.bind_eq_bind, Option.bind_some, wirePartition_eq,
      ← hentries, ← hp, hpolys, Option.pure_def]
    rfl

end RoutedCircuit

end MegaZK
