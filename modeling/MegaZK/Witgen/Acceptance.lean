import MegaZK.Lib.Fold
import MegaZK.Witgen.Refinement

/-! # Which generator sets are accepted

The host reports the generators that never become ready. `build` asserts the same of its two level
passes, but these count the generators visited over the dependency sets, and a target that nobody
provides leaves no edge there: both assertions always hold. -/

namespace MegaZK

variable {a : BuildArgs}

/-! ### Sizes in terms of the generators -/

/-- Every region has room for all generators at the width of the widest one. -/
structure BuildArgs.Roomy (a : BuildArgs) : Prop where
  size : ∀ k, a.origin k + a.n * a.width k (List.range a.n) < 2 ^ 32
  count : a.n < 2 ^ 32

lemma BuildArgs.width_le {k : Region} {gens : List ℕ} {m : ℕ}
    (h : ∀ g ∈ gens, a.items k g ≤ m) : a.width k gens ≤ m := by
  cases k with
  | write => exact foldl_max_le (f := fun g => (a.outputReps g).length) (Nat.zero_le _) h
  | read => exact foldl_max_le (f := fun g => (a.watchReps g).length) (Nat.zero_le _) h
  | params =>
    exact foldl_max_le (f := fun g => (a.generator g).params.length) (Nat.zero_le _) h

/-- A schedule holds no more generators than there are. -/
lemma Schedule.Runnable.sum_length_le {s : Schedule} (hs : s.Runnable a) (m : ℕ) :
    ((List.range m).map fun l => ((s.layer l).toList.map fun b => b.2.length).sum).sum ≤ a.n := by
  let gens := (List.range m).flatMap fun l => (s.layer l).toList.flatMap Prod.snd
  have hlen : gens.length =
      ((List.range m).map fun l => ((s.layer l).toList.map fun b => b.2.length).sum).sum := by
    simp [gens, List.length_flatMap]
  have hnodup : gens.Nodup := by
    refine List.nodup_flatMap.mpr ⟨fun l _ => List.nodup_flatMap.mpr ⟨?_, ?_⟩, ?_⟩
    · intro b hb
      rw [List.nodup_iff_getElem?_ne_getElem?]
      intro i j hij hj heq
      have hi : b.2[j]? = some b.2[j] := List.getElem?_eq_getElem hj
      obtain ⟨-, -, rfl⟩ := hs.unique l l b hb b hb i j _ (heq.trans hi) hi
      exact lt_irrefl _ hij
    · refine (s.layer l).distinct_keys_toList.imp_of_mem ?_
      intro b b' hb hb' hne g hg hg'
      obtain ⟨i, hi⟩ := List.mem_iff_getElem?.mp hg
      obtain ⟨i', hi'⟩ := List.mem_iff_getElem?.mp hg'
      obtain ⟨-, rfl, -⟩ := hs.unique l l b hb b' hb' i i' g hi hi'
      exact hne Std.ReflCmp.compare_self
    · refine List.pairwise_lt_range.imp ?_
      intro l l' hll g hg hg'
      obtain ⟨b, hb, hgb⟩ := List.mem_flatMap.mp hg
      obtain ⟨b', hb', hgb'⟩ := List.mem_flatMap.mp hg'
      obtain ⟨i, hi⟩ := List.mem_iff_getElem?.mp hgb
      obtain ⟨i', hi'⟩ := List.mem_iff_getElem?.mp hgb'
      obtain ⟨rfl, -, -⟩ := hs.unique l l' b hb b' hb' i i' g hi hi'
      exact lt_irrefl _ hll
  have hsub : gens ⊆ List.range a.n := by
    intro g hg
    obtain ⟨l, -, hg⟩ := List.mem_flatMap.mp hg
    obtain ⟨b, hb, hgb⟩ := List.mem_flatMap.mp hg
    exact List.mem_range.mpr (hs.lt l b hb g hgb)
  rw [← hlen]
  simpa using (hnodup.subperm hsub).length_le

lemma Schedule.Runnable.fits {s : Schedule} (hs : s.Runnable a) (hroom : a.Roomy) :
    s.Fits a := by
  refine ⟨fun k => lt_of_le_of_lt (Nat.add_le_add_left ?_ _) (hroom.size k), hroom.count⟩
  have hbatch : ∀ l, a.size k (s.layer l).toList ≤
      ((s.layer l).toList.map fun b => b.2.length).sum * a.width k (List.range a.n) := by
    intro l
    rw [BuildArgs.size, ← List.sum_map_mul_right]
    refine List.sum_le_sum fun b hb => Nat.mul_le_mul_left _ ?_
    exact BuildArgs.width_le fun g hg =>
      a.items_le_width (List.mem_range.mpr (hs.lt l b hb g hg)) k
  calc s.size a k (s.levels.maxLevel + 1)
      ≤ ((List.range (s.levels.maxLevel + 1)).map fun l =>
          ((s.layer l).toList.map fun b => b.2.length).sum *
            a.width k (List.range a.n)).sum :=
        List.sum_le_sum fun l _ => hbatch l
    _ = ((List.range (s.levels.maxLevel + 1)).map fun l =>
          ((s.layer l).toList.map fun b => b.2.length).sum).sum *
            a.width k (List.range a.n) := List.sum_map_mul_right _ _ _
    _ ≤ a.n * a.width k (List.range a.n) :=
        Nat.mul_le_mul_right _ (hs.sum_length_le _)

/-! ### Reports -/

/-- `WitnessService::build` up to the upload of the plan. -/
def WitnessService.build (h : HashOrder) (a : BuildArgs) (mode : Scheduling) :
    Except String WitnessPlan :=
  match WitnessService.schedule h a mode with
  | .error e => .error e
  | .ok s => a.plan s

/-- The message of `build` and of the host when `k` generators were not run. -/
def notRunMessage (k : ℕ) : String := s!"{k} generators weren't run"

lemma getLast?_notRunMessage (k : ℕ) : (notRunMessage k).toList.getLast? = some 'n' := by
  have hlast : " generators weren't run".toList.getLast? = some 'n' := by decide
  change ((toString k ++ " generators weren't run").toList).getLast? = _
  rw [String.toList_append, List.getLast?_append, hlast]
  rfl

/-- The plan of a schedule fails only with an index out of bounds. -/
lemma BuildArgs.plan_error {s : Schedule} {e : String} (hrun : a.plan s = .error e) :
    e = "index out of bounds" := by
  have hstore : ∀ (len : ℕ) (addr : ℕ → ℕ) (vals : List ℕ) (m : ℕ → ℕ) (e : String),
      storeAll len addr vals m = .error e → e = "index out of bounds" := by
    intro len addr vals m e hrun
    refine Fold.foldlM_error (· = "index out of bounds") ?_ hrun
    intro m vj e h
    split_ifs at h
    cases h
    rfl
  have hgenerator : ∀ num st gi e, a.planGenerator num st gi = .error e →
      e = "index out of bounds" := by
    intro num st gi e hrun
    unfold BuildArgs.planGenerator at hrun
    simp only [bind, Except.bind, pure, Except.pure] at hrun
    split at hrun
    · rename_i e' hread
      cases hrun
      exact hstore _ _ _ _ e hread
    · split at hrun
      · rename_i e' hparam
        cases hrun
        exact hstore _ _ _ _ e hparam
      · cases hrun
  have hbatch : ∀ l acc b e, a.planBatch l acc b = .error e → e = "index out of bounds" := by
    intro l acc b e hrun
    unfold BuildArgs.planBatch at hrun
    simp only [bind, Except.bind, pure, Except.pure] at hrun
    split at hrun
    · rename_i e' hfold
      cases hrun
      exact Fold.foldlM_error _ (hgenerator _) hfold
    · cases hrun
  have hlayer : ∀ acc l e, a.planLayer s.layer acc l = .error e → e = "index out of bounds" := by
    intro acc l e hrun
    unfold BuildArgs.planLayer at hrun
    simp only [bind, Except.bind, pure, Except.pure] at hrun
    split at hrun
    · rename_i e' hfold
      cases hrun
      exact Fold.foldlM_error _ (hbatch _) hfold
    · cases hrun
  unfold BuildArgs.plan at hrun
  simp only [bind, Except.bind, pure, Except.pure] at hrun
  split at hrun
  · rename_i e' hfold
    cases hrun
    exact Fold.foldlM_error _ hlayer hfold
  · cases hrun

/-- `build` never reports generators that were not run. -/
lemma WitnessService.build_ne_notRunMessage (h : HashOrder) (a : BuildArgs) (mode : Scheduling)
    (k : ℕ) : WitnessService.build h a mode ≠ .error (notRunMessage k) := by
  have hne : ∀ e : String, e.toList.getLast? ≠ some 'n' → e ≠ notRunMessage k := by
    rintro e he rfl
    exact he (getLast?_notRunMessage k)
  intro hrun
  unfold WitnessService.build at hrun
  rcases Nat.eq_zero_or_pos a.n with hn | hn
  · rw [WitnessService.schedule, a.levels_of_n_eq_zero h hn] at hrun
    exact hne _ (by decide) (Except.error.inj hrun)
  · obtain ⟨s, hs, -⟩ := schedule_spec h hn mode
    rw [hs] at hrun
    exact hne _ (by decide) (BuildArgs.plan_error hrun).symm

/-- The host reports generators that were not run exactly when one never becomes ready. -/
lemma HostState.report_iff {F : Type*} [DecidableEq F] [Zero F] {runOnce : ℕ → List F → List F}
    {V : ℕ → F} {inputs : List F} (hV : Consistent a runOnce inputs V)
    {assignment : List (Target × F)} (hperm : assignment.Perm (a.inputTargets.zip inputs)) :
    (∃ k, generatePartialWitness a runOnce assignment = .error (notRunMessage k)) ↔
      ¬ a.AllReady := by
  obtain ⟨s, hrun, hs, hexpired⟩ := exists_rounds hV hperm
  rw [hrun]
  have hrem : s.remaining = ((List.range a.n).filter fun g => ! s.expired g).length :=
    hs.remaining
  constructor
  · rintro ⟨k, hk⟩ hready
    rw [if_pos] at hk
    · cases hk
    rw [hrem, List.length_eq_zero_iff, List.filter_eq_nil_iff]
    intro g hg
    rw [List.mem_range] at hg
    simp [(hexpired g hg).mpr (hready g hg)]
  · intro hready
    refine ⟨s.remaining, if_neg fun hzero => hready fun g hg => ?_⟩
    rw [hrem, List.length_eq_zero_iff, List.filter_eq_nil_iff] at hzero
    refine (hexpired g hg).mp ?_
    simpa using hzero g (List.mem_range.mpr hg)

/-- `build` reports generators that were not run when the host does, and the reads of an accepted
plan are slots. -/
structure ReportsAgree (h : HashOrder) (a : BuildArgs) (mode : Scheduling) : Prop where
  report : ∀ (F : Type) [DecidableEq F] [Zero F] (runOnce : ℕ → List F → List F)
    (inputs : List F) (V : ℕ → F) (assignment : List (Target × F)),
    Consistent a runOnce inputs V → assignment.Perm (a.inputTargets.zip inputs) →
    ((∃ k, WitnessService.build h a mode = .error (notRunMessage k)) ↔
      ∃ k, HostState.generatePartialWitness a runOnce assignment = .error (notRunMessage k))
  reads : ∀ p, WitnessService.build h a mode = .ok p → ∀ t ∈ threads p.layers.flatten,
    ∀ j < (a.watchReps t.gen).length, p.readMap (u32 (t.slot .read j)) ≠ u32Max

/-- The reads of a plan of generators that all become ready are slots. -/
lemma BuildArgs.readMap_ne_u32Max {h : HashOrder} {mode : Scheduling} (hready : a.AllReady)
    (hroom : a.Roomy) {p : WitnessPlan} (hp : WitnessService.build h a mode = .ok p) {t : Thread}
    (ht : t ∈ threads p.layers.flatten) {j : ℕ} (hj : j < (a.watchReps t.gen).length) :
    p.readMap (u32 (t.slot .read j)) ≠ u32Max := by
  unfold WitnessService.build at hp
  cases hs : WitnessService.schedule h a mode with
  | error e => simp [hs] at hp
  | ok s =>
    rw [hs] at hp
    have hsched := Schedule.runnable_of_allReady hready hs
    obtain ⟨-, -, st, hplanned, hstart, hwrite, hread, -⟩ :=
      a.plan_spec hsched (hsched.fits hroom) hp
    obtain ⟨hne, heq⟩ := hplanned.mapped.read t ht j _ (List.getElem?_eq_getElem hj)
    have hslot := (hplanned.laid.slot_lt ht (k := .read) hj).2
    rw [u32_of_lt (hslot.trans (hstart .read)), ← hread, heq]
    exact hne

/-- A generator that watches a wire which nobody provides. -/
def orphanArgs : BuildArgs where
  inputTargets := []
  generators := [⟨"CopyGenerator", [.wire 0 0], [.wire 0 1], []⟩]
  representativeMap := [0, 1]
  numWires := 2
  degree := 1
  wires_le := by decide
  rep_lt := by decide
  inputs_lt := by decide
  watch_lt := by decide
  outputs_lt := by decide

end MegaZK
