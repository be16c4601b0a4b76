import MegaZK.Lib.Fold
import MegaZK.Witgen.PlanMaps

/-! # The capacity of the plan's vectors

`build` gives `read_map` and `witness_params` one entry per target, and fills them with one entry
per generator and dependency, padded to the widest generator of each batch. Nothing relates the
two numbers. Here is when the filling stays inside the vectors and no 32-bit start wraps. -/

namespace MegaZK

variable {a : BuildArgs}

/-! ### The condition -/

/-- The batches of a schedule with their layers, in the order in which `build` visits them. -/
def Schedule.batches (s : Schedule) : List (ℕ × String × List ℕ) :=
  (List.range (s.levels.maxLevel + 1)).flatMap fun l => (s.layer l).toList.map (l, ·)

namespace BuildArgs

variable (a : BuildArgs)

/-- Where the regions after the given batches start, without overflow. -/
def regionStart (k : Region) (done : List (ℕ × String × List ℕ)) : ℕ :=
  a.origin k + a.size k (done.map Prod.snd)

/-- The entries of generator `gi.1`, the one of index `gi.2` in a batch of `num`, lie inside the
vectors. -/
def ItemsFit (start : Region → ℕ) (num : ℕ) (gi : ℕ × ℕ) : Prop :=
  ∀ k, k ≠ Region.write → ∀ j < a.items k gi.1,
    start k + gi.2 + j * num < a.representativeMap.length

/-- The entries of all generators of a batch lie inside the vectors. -/
def BatchFits (start : Region → ℕ) (gens : List ℕ) : Prop :=
  ∀ gi ∈ gens.zipIdx, a.ItemsFit start gens.length gi

/-- The filling of the plan, batch after batch. -/
def planBatches (bs : List (ℕ × String × List ℕ)) :
    Except String (PlanState × List KernelBatch) :=
  bs.foldlM (fun acc b => a.planBatch b.1 acc b.2) (a.planInit, [])

end BuildArgs

/-- The padded batches end below `2 ^ 32`, and their entries lie inside the vectors. -/
structure Schedule.Capacity (a : BuildArgs) (s : Schedule) : Prop where
  total : ∀ k, a.regionStart k s.batches < 2 ^ 32
  vectors : ∀ pre b post, s.batches = pre ++ b :: post →
    a.BatchFits (fun k => a.regionStart k pre) b.2.2

/-- The plan is filled without an index out of bounds, and before and after every batch the three
starts are the unbounded ones. -/
def Schedule.FilledInBounds (a : BuildArgs) (s : Schedule) : Prop :=
  (∃ p, a.plan s = .ok p) ∧ ∀ pre post, s.batches = pre ++ post →
    ∃ r, a.planBatches pre = .ok r ∧ ∀ k, r.1.start k = a.regionStart k pre

/-! ### One batch -/

lemma BuildArgs.storeAll_isOk (len : ℕ) (addr : ℕ → ℕ) (vals : List ℕ) (m : ℕ → ℕ) :
    (∃ m', storeAll len addr vals m = .ok m') ↔ ∀ j < vals.length, addr j < len := by
  unfold storeAll
  rw [(Fold.foldlM_rule (fun _ _ => True) (fun _ vj => addr vj.2 < len) ?_
    (fun _ _ _ _ _ _ => trivial) vals.zipIdx (d := []) trivial).1]
  · constructor
    · intro h j hj
      have hmem : (vals[j], j) ∈ vals.zipIdx :=
        List.mk_mem_zipIdx_iff_getElem?.mpr (List.getElem?_eq_getElem hj)
      obtain ⟨pre, post, heq⟩ := List.append_of_mem hmem
      exact h pre _ post heq
    · rintro h pre ⟨v, j⟩ post heq
      have hmem : (v, j) ∈ vals.zipIdx := by simp [heq]
      exact h j (List.getElem?_eq_some_iff.mp (List.mk_mem_zipIdx_iff_getElem?.mp hmem)).1
  · intro _ m vj _
    split_ifs with h <;> simp [h]

lemma BuildArgs.planGenerator_isOk {num : ℕ} {s : PlanState} {gi : ℕ × ℕ} :
    (∃ s', a.planGenerator num s gi = .ok s') ↔ a.ItemsFit s.start num gi := by
  have hread := BuildArgs.storeAll_isOk a.representativeMap.length
    (fun j => s.readStart + gi.2 + j * num)
    ((a.watchReps gi.1).map (BuildArgs.claimSlots
      (fun j => u32 (s.writeStart + u32 (gi.2 + j * num))) (a.outputReps gi.1) s.writeMap))
    s.readMap
  have hparam := BuildArgs.storeAll_isOk a.representativeMap.length
    (fun j => s.paramStart + gi.2 + j * num) (a.generator gi.1).params s.params
  rw [List.length_map] at hread
  have hsplit : a.ItemsFit s.start num gi ↔
      (∀ j < (a.watchReps gi.1).length, s.readStart + gi.2 + j * num < a.representativeMap.length) ∧
      ∀ j < (a.generator gi.1).params.length,
        s.paramStart + gi.2 + j * num < a.representativeMap.length := by
    constructor
    · exact fun h => ⟨h .read (by simp), h .params (by simp)⟩
    · rintro ⟨h₁, h₂⟩ k hk
      cases k with
      | write => exact absurd rfl hk
      | read => exact h₁
      | params => exact h₂
  rw [hsplit, ← hread, ← hparam]
  unfold BuildArgs.planGenerator
  simp only [bind, Except.bind, pure, Except.pure]
  constructor
  · rintro ⟨s', hrun⟩
    split at hrun
    · cases hrun
    rename_i readMap hr
    split at hrun
    · cases hrun
    rename_i params hp
    exact ⟨⟨readMap, hr⟩, ⟨params, hp⟩⟩
  · rintro ⟨⟨readMap, hr⟩, ⟨params, hp⟩⟩
    simp only [hr, hp]
    exact ⟨_, rfl⟩

lemma BuildArgs.planGenerator_start {num : ℕ} {s s' : PlanState} {gi : ℕ × ℕ}
    (hrun : a.planGenerator num s gi = .ok s') : s'.start = s.start := by
  unfold BuildArgs.planGenerator at hrun
  simp only [bind, Except.bind, pure, Except.pure] at hrun
  split at hrun
  · cases hrun
  split at hrun
  · cases hrun
  cases hrun
  funext k
  cases k <;> rfl

/-- The loop over the generators of a batch keeps the starts, and runs through when the entries of
all of them lie inside the vectors. -/
lemma BuildArgs.foldlM_planGenerator_spec (gens : List ℕ) (s : PlanState) :
    ((∃ s', gens.zipIdx.foldlM (a.planGenerator gens.length) s = .ok s') ↔
        a.BatchFits s.start gens) ∧
      ∀ s', gens.zipIdx.foldlM (a.planGenerator gens.length) s = .ok s' → s'.start = s.start := by
  obtain ⟨hiff, hstart⟩ := Fold.foldlM_rule (f := a.planGenerator gens.length)
    (fun _ st => st.start = s.start) (fun _ gi => a.ItemsFit s.start gens.length gi)
    (fun _ st gi hst => by rw [← hst]; exact BuildArgs.planGenerator_isOk)
    (fun _ st gi st' hst hrun => (BuildArgs.planGenerator_start hrun).trans hst)
    gens.zipIdx (d := []) (s := s) rfl
  refine ⟨hiff.trans ⟨?_, ?_⟩, hstart⟩
  · intro h gi hgi
    obtain ⟨pre, post, heq⟩ := List.append_of_mem hgi
    exact h pre gi post heq
  · intro h pre gi post heq
    exact h gi (by simp [heq])

lemma BuildArgs.planBatch_isOk {l : ℕ} {acc : PlanState × List KernelBatch}
    {b : String × List ℕ} :
    (∃ r, a.planBatch l acc b = .ok r) ↔ a.BatchFits acc.1.start b.2 := by
  rw [← (a.foldlM_planGenerator_spec b.2 acc.1).1]
  unfold BuildArgs.planBatch
  simp only [bind, Except.bind, pure, Except.pure]
  cases b.2.zipIdx.foldlM (a.planGenerator b.2.length) acc.1 with
  | error e => simp
  | ok s => simp

lemma BuildArgs.planBatch_start {l : ℕ} {acc r : PlanState × List KernelBatch}
    {b : String × List ℕ} (hrun : a.planBatch l acc b = .ok r) (k : Region) :
    r.1.start k = u32 (acc.1.start k + u32 (b.2.length * a.width k b.2)) := by
  unfold BuildArgs.planBatch at hrun
  simp only [bind, Except.bind, pure, Except.pure] at hrun
  split at hrun
  · cases hrun
  rename_i s hs
  have hstart := (a.foldlM_planGenerator_spec b.2 acc.1).2 s hs
  cases hrun
  rw [← hstart]
  cases k <;> rfl

/-! ### The whole plan -/

lemma BuildArgs.regionStart_concat (k : Region) (done : List (ℕ × String × List ℕ))
    (b : ℕ × String × List ℕ) :
    a.regionStart k (done ++ [b]) = a.regionStart k done + b.2.2.length * a.width k b.2.2 := by
  simp [BuildArgs.regionStart, BuildArgs.size, Nat.add_assoc]

lemma BuildArgs.regionStart_le (k : Region) (pre post : List (ℕ × String × List ℕ)) :
    a.regionStart k pre ≤ a.regionStart k (pre ++ post) := by
  simp [BuildArgs.regionStart, BuildArgs.size]

/-- The starts are those of the unbounded layout, cut to 32 bits. -/
lemma BuildArgs.planBatches_spec (a : BuildArgs) (bs : List (ℕ × String × List ℕ)) :
    ((∃ r, a.planBatches bs = .ok r) ↔ ∀ pre b post, bs = pre ++ b :: post →
        a.BatchFits (fun k => u32 (a.regionStart k pre)) b.2.2) ∧
      ∀ r, a.planBatches bs = .ok r → r.1.start = fun k => u32 (a.regionStart k bs) := by
  have hinit : a.planInit.start = fun k => u32 (a.regionStart k []) := by
    funext k
    cases k <;> simp [BuildArgs.regionStart, BuildArgs.size, BuildArgs.origin, PlanState.start,
      BuildArgs.planInit, u32]
  have hstep : ∀ x y, u32 (u32 x + u32 y) = u32 (x + y) := fun x y => by
    unfold u32
    rw [← Nat.add_mod]
  exact Fold.foldlM_rule (f := fun acc b => a.planBatch b.1 acc b.2)
    (fun done r => r.1.start = fun k => u32 (a.regionStart k done))
    (fun done b => a.BatchFits (fun k => u32 (a.regionStart k done)) b.2.2)
    (fun _ _ _ hs => by rw [← hs]; exact BuildArgs.planBatch_isOk)
    (fun done r b r' hs hrun => by
      funext k
      rw [BuildArgs.planBatch_start hrun, hs, hstep, BuildArgs.regionStart_concat])
    bs (d := []) (s := (a.planInit, [])) hinit

/-- The list of finished batches is only appended to. -/
lemma BuildArgs.planBatch_append (l : ℕ) (pre : List KernelBatch)
    (acc : PlanState × List KernelBatch) (b : String × List ℕ) :
    a.planBatch l (acc.1, pre ++ acc.2) b =
      (a.planBatch l acc b).map fun r => (r.1, pre ++ r.2) := by
  unfold BuildArgs.planBatch
  simp only [bind, Except.bind, pure, Except.pure]
  cases b.2.zipIdx.foldlM (a.planGenerator b.2.length) acc.1 with
  | error e => rfl
  | ok s => simp [Except.map]

/-- Layer by layer or batch by batch, the plan is filled in the same way. -/
lemma BuildArgs.plan_isOk (s : Schedule) :
    (∃ p, a.plan s = .ok p) ↔ ∃ r, a.planBatches s.batches = .ok r := by
  have hlayer : ∀ (acc : PlanState × List (List KernelBatch)) (l : ℕ),
      ((s.layer l).toList.map (l, ·)).foldlM (fun acc b => a.planBatch b.1 acc b.2)
          (acc.1, acc.2.flatten) =
        (a.planLayer s.layer acc l).map fun r => (r.1, r.2.flatten) := by
    intro acc l
    have hhom := Fold.foldlM_hom (fun r : PlanState × List KernelBatch => (r.1, acc.2.flatten ++ r.2))
      (fun r b => a.planBatch_append l acc.2.flatten r b) (s.layer l).toList (acc.1, [])
    rw [List.append_nil] at hhom
    rw [List.foldlM_map]
    refine hhom.trans ?_
    unfold BuildArgs.planLayer
    simp only [bind, Except.bind, pure, Except.pure]
    cases (s.layer l).toList.foldlM (a.planBatch l) (acc.1, []) with
    | error e => rfl
    | ok r => simp [Except.map]
  have hflat : a.planBatches s.batches =
      ((List.range (s.levels.maxLevel + 1)).foldlM (a.planLayer s.layer) (a.planInit, [])).map
        fun r => (r.1, r.2.flatten) := by
    rw [BuildArgs.planBatches, Schedule.batches, Fold.foldlM_flatMap]
    exact Fold.foldlM_hom (fun r : PlanState × List (List KernelBatch) => (r.1, r.2.flatten))
      hlayer _ (a.planInit, [])
  rw [hflat]
  unfold BuildArgs.plan
  simp only [bind, Except.bind, pure, Except.pure]
  cases (List.range (s.levels.maxLevel + 1)).foldlM (a.planLayer s.layer) (a.planInit, []) with
  | error e => simp [Except.map]
  | ok r => simp [Except.map]

/-- Three generators that each watch the first wire three times, in a circuit of four wires. -/
def squareArgs : BuildArgs where
  inputTargets := [.wire 0 0]
  generators :=
    [⟨"ArithmeticBaseGenerator", [.wire 0 0, .wire 0 0, .wire 0 0], [.wire 0 1], [1, 1]⟩,
      ⟨"ArithmeticBaseGenerator", [.wire 0 0, .wire 0 0, .wire 0 0], [.wire 1 0], [1, 2]⟩,
      ⟨"ArithmeticBaseGenerator", [.wire 0 0, .wire 0 0, .wire 0 0], [.wire 1 1], [1, 3]⟩]
  representativeMap := [0, 1, 2, 3]
  numWires := 2
  degree := 2
  wires_le := by decide
  rep_lt := by decide
  inputs_lt := by decide
  watch_lt := by decide
  outputs_lt := by decide

end MegaZK
