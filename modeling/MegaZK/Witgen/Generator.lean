import Mathlib

/-! # Witness generators

The arguments of `WitnessService::build`: the generators with the targets they watch and
populate, and the map from target indices to the representatives of the copy classes. -/

namespace MegaZK

/-- A location in the witness. -/
inductive Target
  | wire (row column : ℕ)
  | virtualTarget (index : ℕ)
  deriving DecidableEq, Repr, Inhabited

/-- `Target::index`: wires first, row by row, then the virtual targets. -/
def Target.index (numWires degree : ℕ) : Target → ℕ
  | .wire row column => row * numWires + column
  | .virtualTarget index => degree * numWires + index

/-- A generator as the scheduler sees it. -/
structure Generator where
  id : String
  watchList : List Target
  outputTargets : List Target
  params : List ℕ
  deriving DecidableEq, Repr, Inhabited

/-- The arguments of `WitnessService::build`. Every target has an index inside the
representative map, and representatives are indices of it too. -/
structure BuildArgs where
  inputTargets : List Target
  generators : List Generator
  representativeMap : List ℕ
  numWires : ℕ
  degree : ℕ
  wires_le : numWires * degree ≤ representativeMap.length
  rep_lt : ∀ r ∈ representativeMap, r < representativeMap.length
  inputs_lt : ∀ t ∈ inputTargets, t.index numWires degree < representativeMap.length
  watch_lt : ∀ g ∈ generators, ∀ t ∈ g.watchList,
    t.index numWires degree < representativeMap.length
  outputs_lt : ∀ g ∈ generators, ∀ t ∈ g.outputTargets,
    t.index numWires degree < representativeMap.length

namespace BuildArgs

variable (a : BuildArgs)

/-- The number of generators. -/
def n : ℕ := a.generators.length

/-- The generator of index `i`. -/
def generator (i : ℕ) : Generator := a.generators.getD i default

/-- The representative of the copy class of a target. -/
def rep (t : Target) : ℕ := a.representativeMap.getD (t.index a.numWires a.degree) 0

/-- The representatives a generator watches, in the order of its watch list. -/
def watchReps (i : ℕ) : List ℕ := (a.generator i).watchList.map a.rep

/-- The representatives a generator populates, in the order of its outputs. -/
def outputReps (i : ℕ) : List ℕ := (a.generator i).outputTargets.map a.rep

/-- The representatives of the input targets. -/
def inputReps : List ℕ := a.inputTargets.map a.rep

/-- `generator_indices_by_watches` as the circuit builder fills it: a generator is pushed for
every watch of the representative, then consecutive repetitions are removed. -/
def generatorIndicesByWatches (rep : ℕ) : List ℕ :=
  ((List.range a.n).flatMap
    fun i => ((a.watchReps i).filter (· = rep)).map fun _ => i).destutter (· ≠ ·)

/-- A generator becomes ready once every representative `r` it watches is an input or is
produced by a generator, `producer r`, that became ready earlier. -/
inductive Ready : ℕ → Prop
  | intro (i : ℕ) (producer : ℕ → ℕ)
      (produced : ∀ r ∈ a.watchReps i, r ∉ a.inputReps →
        producer r < a.n ∧ r ∈ a.outputReps (producer r))
      (earlier : ∀ r ∈ a.watchReps i, r ∉ a.inputReps → Ready (producer r)) : Ready i

variable {a} in
/-- A generator becomes ready when all it watches is an input or comes from ready generators. -/
lemma Ready.of_watched {i : ℕ} (h : ∀ r ∈ a.watchReps i,
    r ∈ a.inputReps ∨ ∃ p < a.n, a.Ready p ∧ r ∈ a.outputReps p) : a.Ready i := by
  have hproducer : ∀ r, ∃ p, r ∈ a.watchReps i → r ∉ a.inputReps →
      p < a.n ∧ a.Ready p ∧ r ∈ a.outputReps p := by
    intro r
    by_cases hr : r ∈ a.watchReps i ∧ r ∉ a.inputReps
    · obtain ⟨p, hp⟩ := (h r hr.1).resolve_left hr.2
      exact ⟨p, fun _ _ => hp⟩
    · exact ⟨0, fun h₁ h₂ => absurd ⟨h₁, h₂⟩ hr⟩
  choose producer hp using hproducer
  exact .intro i producer (fun r hr hin => ⟨(hp r hr hin).1, (hp r hr hin).2.2⟩)
    (fun r hr hin => (hp r hr hin).2.1)

/-- Every generator becomes ready. -/
def AllReady : Prop := ∀ i < a.n, a.Ready i

end BuildArgs

/-! ### The watchers of a representative -/

private lemma mem_destutter'_ne {x : ℕ} (l : List ℕ) (b : ℕ) (hx : x ∈ b :: l) :
    x ∈ l.destutter' (· ≠ ·) b := by
  induction l generalizing b with
  | nil => simpa using hx
  | cons c l ih =>
    by_cases hbc : b = c
    · subst hbc
      rw [List.destutter'_cons_neg _ (by simp)]
      exact ih b (by simpa using hx)
    · rw [List.destutter'_cons_pos _ hbc, List.mem_cons]
      rcases List.mem_cons.mp hx with rfl | hx
      · exact .inl rfl
      · exact .inr (ih c hx)

lemma mem_destutter_ne {x : ℕ} (l : List ℕ) : x ∈ l.destutter (· ≠ ·) ↔ x ∈ l := by
  refine ⟨fun h => (List.destutter_sublist _ l).subset h, fun h => ?_⟩
  cases l with
  | nil => simp at h
  | cons b l => exact mem_destutter'_ne l b h

/-- Removing consecutive repetitions from a sorted list removes all repetitions. -/
lemma nodup_destutter_ne {l : List ℕ} (hl : l.Pairwise (· ≤ ·)) :
    (l.destutter (· ≠ ·)).Nodup := by
  have hle : (l.destutter (· ≠ ·)).IsChain (· ≤ ·) :=
    (hl.sublist (List.destutter_sublist _ l)).isChain
  have hne : (l.destutter (· ≠ ·)).IsChain (· ≠ ·) := List.isChain_destutter _ l
  have hlt : (l.destutter (· ≠ ·)).IsChain (· < ·) := by
    rw [List.isChain_iff_getElem] at hle hne ⊢
    intro i hi
    exact lt_of_le_of_ne (hle i hi) (hne i hi)
  exact hlt.pairwise.imp ne_of_lt

namespace BuildArgs

variable (a : BuildArgs)

lemma mem_generatorIndicesByWatches {rep i : ℕ} :
    i ∈ a.generatorIndicesByWatches rep ↔ i < a.n ∧ rep ∈ a.watchReps i := by
  rw [generatorIndicesByWatches, mem_destutter_ne]
  simp only [List.mem_flatMap, List.mem_range, List.mem_map, List.mem_filter, decide_eq_true_eq]
  constructor
  · rintro ⟨j, hj, r, ⟨hr, rfl⟩, rfl⟩
    exact ⟨hj, hr⟩
  · rintro ⟨hi, hr⟩
    exact ⟨i, hi, rep, ⟨hr, rfl⟩, rfl⟩

lemma nodup_generatorIndicesByWatches (rep : ℕ) :
    (a.generatorIndicesByWatches rep).Nodup := by
  apply nodup_destutter_ne
  rw [List.pairwise_flatMap]
  refine ⟨?_, ?_⟩
  · intro i _
    rw [List.pairwise_map]
    exact List.pairwise_of_forall (fun _ _ => le_refl i)
  · refine List.Pairwise.imp ?_ List.pairwise_lt_range
    intro i j hij x hx y hy
    obtain ⟨_, _, rfl⟩ := List.mem_map.mp hx
    obtain ⟨_, _, rfl⟩ := List.mem_map.mp hy
    exact hij.le

end BuildArgs

end MegaZK
