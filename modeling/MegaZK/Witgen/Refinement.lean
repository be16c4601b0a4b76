import MegaZK.Witgen.Execution

/-! # The device witness is the host witness

The wires after a replay of the plan and the scatter hold what `generate_partial_witness`
computes, as long as the sizes fit 32 bits; with `2 ^ 32` inputs they do not. -/

namespace MegaZK

variable {a : BuildArgs} {F : Type*} [Zero F]

/-- The cell of a wire after the scatter. -/
lemma generateFullWitness_apply (hcells : a.numWires * a.degree ≤ 2 ^ 32) (p : WitnessPlan)
    (witness full : ℕ → F) {i j : ℕ} (hi : i < a.degree) (hj : j < a.numWires) :
    generateFullWitness a p witness full (j * a.degree + i) =
      if p.writeMap (a.rep (.wire i j)) = u32Max then 0
      else witness (p.writeMap (a.rep (.wire i j))) := by
  have hcell : ∀ i < a.degree, ∀ j < a.numWires, j * a.degree + i < 2 ^ 32 := by
    intro i hi j hj
    calc j * a.degree + i < (j + 1) * a.degree := by rw [Nat.succ_mul]; omega
      _ ≤ a.numWires * a.degree := Nat.mul_le_mul_right _ hj
      _ ≤ 2 ^ 32 := hcells
  have hindex : i * a.numWires + j < 2 ^ 32 := by
    calc i * a.numWires + j < (i + 1) * a.numWires := by rw [Nat.succ_mul]; omega
      _ ≤ a.degree * a.numWires := Nat.mul_le_mul_right _ hi
      _ ≤ 2 ^ 32 := by rw [Nat.mul_comm]; exact hcells
  have hscatter : generateFullWitness a p witness full =
      Scatter.scatter
        ((List.range a.degree).flatMap fun i => (List.range a.numWires).map fun j => (i, j))
        (fun ij => u32 (ij.2 * a.degree + ij.1))
        (fun ij => if a.transMap p (u32 (ij.1 * a.numWires + ij.2)) = u32Max then 0
          else witness (a.transMap p (u32 (ij.1 * a.numWires + ij.2)))) full := rfl
  have hmem : ∀ ij : ℕ × ℕ, ij ∈ ((List.range a.degree).flatMap fun i =>
      (List.range a.numWires).map fun j => (i, j)) ↔ ij.1 < a.degree ∧ ij.2 < a.numWires := by
    rintro ⟨i, j⟩
    simp
  have hcells' := Scatter.scatter_of_mem (fun ij : ℕ × ℕ => u32 (ij.2 * a.degree + ij.1))
    (fun ij => if a.transMap p (u32 (ij.1 * a.numWires + ij.2)) = u32Max then 0
      else witness (a.transMap p (u32 (ij.1 * a.numWires + ij.2)))) full
    ((hmem (i, j)).mpr ⟨hi, hj⟩) (by
      rintro ⟨i', j'⟩ hij heq
      obtain ⟨hi', hj'⟩ := (hmem _).mp hij
      simp only [u32_of_lt (hcell i' hi' j' hj'), u32_of_lt (hcell i hi j hj)] at heq
      rw [Nat.add_comm, Nat.add_comm (j * a.degree)] at heq
      obtain ⟨rfl, rfl⟩ := Scatter.stride_inj hi' hi heq
      rfl)
  simp only [u32_of_lt (hcell i hi j hj), u32_of_lt hindex] at hcells'
  rw [hscatter, hcells']
  rfl

/-! ### Agreement of the two sides -/

/-- The host succeeds, and every wire of the device witness has the value of the host. -/
def SameWitness [DecidableEq F] (a : BuildArgs) (p : WitnessPlan) (runOnce : ℕ → List F → List F)
    (kernel : String → (ℕ → ℕ) → (ℕ → F) → List F) (inputs : List F)
    (assignment : List (Target × F)) (order : ThreadOrder) (witness full : ℕ → F) : Prop :=
  ∃ values, HostState.generatePartialWitness a runOnce assignment = .ok values ∧
    ∀ i < a.degree, ∀ j < a.numWires,
      generateFullWitness a p
          (p.replay kernel order (WitnessPlan.uploadInputs witness inputs)) full
          (j * a.degree + i) =
        HostState.fullWitness a values i j

/-- A slot read in a layer is an input slot or was written in an earlier layer, and no two
outputs or inputs share a slot. -/
structure WitnessPlan.SlotsSound (a : BuildArgs) (p : WitnessPlan) : Prop where
  reads : ∀ t ∈ threads p.layers.flatten, ∀ j < (a.watchReps t.gen).length,
    p.readMap (u32 (t.slot .read j)) < a.inputTargets.length ∨
      ∃ t' ∈ threads p.layers.flatten, t'.batch.layer < t.batch.layer ∧
        ∃ j' < (a.outputReps t'.gen).length,
          p.readMap (u32 (t.slot .read j)) = u32 (t'.slot .write j')
  outputs : ∀ t ∈ threads p.layers.flatten, ∀ t' ∈ threads p.layers.flatten,
    ∀ j < (a.outputReps t.gen).length, ∀ j' < (a.outputReps t'.gen).length,
      u32 (t.slot .write j) = u32 (t'.slot .write j') → t.gen = t'.gen ∧ j = j'
  inputs : ∀ t ∈ threads p.layers.flatten, ∀ j < (a.outputReps t.gen).length,
    ∀ k < a.inputTargets.length, u32 (t.slot .write j) ≠ u32 k
  distinct : ∀ k < a.inputTargets.length, ∀ k' < a.inputTargets.length, u32 k = u32 k' → k = k'

omit [Zero F] in
lemma holds_uploadInputs {runOnce : ℕ → List F → List F} {inputs : List F} {V : ℕ → F}
    (hV : Consistent a runOnce inputs V) (witness : ℕ → F) :
    Holds a V [] (WitnessPlan.uploadInputs witness inputs) := by
  refine ⟨?_, by simp⟩
  intro k r hk
  simp only [BuildArgs.inputReps, List.getElem?_map, Option.map_eq_some_iff] at hk
  obtain ⟨t, ht, rfl⟩ := hk
  obtain ⟨hk, rfl⟩ := List.getElem?_eq_some_iff.mp ht
  have hk' : k < inputs.length := hV.length ▸ hk
  have hzip : (a.inputTargets[k], inputs[k]) ∈ a.inputTargets.zip inputs := by
    rw [← List.getElem_zip (h := by simp [hk, hk'])]
    exact List.getElem_mem _
  rw [WitnessPlan.uploadInputs, List.getD_eq_getElem _ _ hk']
  exact hV.input _ hzip

lemma WitnessPlan.Executable.slotsSound {p : WitnessPlan}
    (hp : p.Executable a p.layers.flatten) (hearlier : p.ReadsEarlier a)
    (hlayers : ∀ (l : ℕ) (layer : List KernelBatch), p.layers[l]? = some layer →
      ∀ b ∈ layer, b.layer = l)
    (hinputs : a.inputTargets.length < 2 ^ 32) : p.SlotsSound a := by
  refine ⟨?_, ?_, ?_, ?_⟩
  · intro t ht j hj
    have hr : (a.watchReps t.gen)[j]? = some (a.watchReps t.gen)[j] :=
      List.getElem?_eq_getElem hj
    rw [hp.u32_slot ht (k := .read) hj, hp.read t ht j _ hr]
    -- the layer of the thread, and the layers before it
    obtain ⟨layer, hlayer, hb⟩ := List.mem_flatten.mp (mem_threads.mp ht).1
    obtain ⟨pre, post, hsplit⟩ := List.append_of_mem hlayer
    have hget : p.layers[pre.length]? = some layer := by
      rw [hsplit, List.getElem?_append_right (le_refl _), Nat.sub_self]
      rfl
    have hl := hlayers _ _ hget _ hb
    rcases hearlier pre layer post hsplit t (mem_threads.mpr ⟨hb, (mem_threads.mp ht).2⟩) _
      (List.mem_of_getElem? hr) with ⟨k, hk, heq⟩ | ⟨t', ht', j', hj', heq⟩
    · left
      have := (List.getElem?_eq_some_iff.mp hk).1
      rw [heq]
      simpa [BuildArgs.inputReps] using this
    · right
      obtain ⟨hb', htid'⟩ := mem_threads.mp ht'
      obtain ⟨layer', hlayer', hb'⟩ := List.mem_flatten.mp hb'
      obtain ⟨l', hl', rfl⟩ := List.getElem_of_mem hlayer'
      have hget' : p.layers[l']? = some pre[l'] := by
        rw [hsplit, List.getElem?_append_left hl', List.getElem?_eq_getElem hl']
      have hall : t' ∈ threads p.layers.flatten := mem_threads.mpr
        ⟨List.mem_flatten.mpr ⟨_, List.mem_of_getElem? hget', hb'⟩, htid'⟩
      have hlt := (List.getElem?_eq_some_iff.mp hj').1
      refine ⟨t', hall, ?_, j', hlt, ?_⟩
      · rw [hlayers _ _ hget' _ hb', hl]
        exact hl'
      · rw [heq, hp.u32_slot hall (k := .write) hlt]
  · intro t ht t' ht' j hj j' hj' heq
    rw [hp.u32_slot ht (k := .write) hj, hp.u32_slot ht' (k := .write) hj'] at heq
    obtain ⟨rfl, rfl⟩ := hp.slot_inj ht ht' (k := .write) hj hj' heq
    exact ⟨rfl, rfl⟩
  · intro t ht j hj k hk
    have horigin := hp.origin_le_slot ht (k := .write) hj
    rw [hp.u32_slot ht (k := .write) hj, u32_of_lt (hk.trans hinputs)]
    simp only [BuildArgs.origin] at horigin
    omega
  · intro k hk k' hk' heq
    rwa [u32_of_lt (hk.trans hinputs), u32_of_lt (hk'.trans hinputs)] at heq

/-- A schedule of generators that all become ready can be turned into a plan. -/
lemma Schedule.runnable_of_allReady {h : HashOrder} {mode : Scheduling} {s : Schedule}
    (hready : a.AllReady) (hs : WitnessService.schedule h a mode = .ok s) : s.Runnable a := by
  obtain ⟨s', hs', hlevels, hvalid, hlt⟩ :=
    schedule_ok h hready (BuildArgs.n_pos_of_schedule hs) mode
  obtain rfl : s = s' := Except.ok.inj (hs.symm.trans hs')
  exact Schedule.runnable hlevels hvalid hlt

/-- The scattered witness holds the value of every populated wire, and zero elsewhere. -/
lemma BuildArgs.scattered_eq [DecidableEq F] {s : Schedule} (hsched : s.Runnable a)
    (hfits : s.Fits a) (hcells : a.numWires * a.degree ≤ 2 ^ 32) {p : WitnessPlan}
    (hp : a.plan s = .ok p) {runOnce : ℕ → List F → List F} {inputs : List F} {V : ℕ → F}
    (hV : Consistent a runOnce inputs V) {kernel : String → (ℕ → ℕ) → (ℕ → F) → List F}
    (hkernel : KernelsCompute a runOnce kernel) (order : ThreadOrder) (witness full : ℕ → F)
    {i j : ℕ} (hi : i < a.degree) (hj : j < a.numWires) :
    generateFullWitness a p
        (p.replay kernel order (WitnessPlan.uploadInputs witness inputs)) full
        (j * a.degree + i) =
      if a.Populated (a.rep (.wire i j)) then V (a.rep (.wire i j)) else 0 := by
  obtain ⟨hexec, hearlier, hslot⟩ := a.plan_executable hsched hfits hp
  have hholds := hexec.holds_replay hearlier hV hkernel order (holds_uploadInputs hV witness)
  rw [generateFullWitness_apply hcells p _ full hi hj]
  have hr := hslot (a.rep (.wire i j))
  by_cases hpop : a.Populated (a.rep (.wire i j))
  · rw [if_pos hpop] at hr ⊢
    rw [if_neg hr.2, hholds.apply_writeMap hr.1]
  · rw [if_neg hpop] at hr ⊢
    rw [if_pos hr]

/-- `run_once` of the generators of `sumArgs`. -/
def sumRunOnce (g : ℕ) (vals : List ℕ) : List ℕ :=
  match g with
  | 0 => [7]
  | 1 => [8]
  | 2 => [vals.getD 0 0 + vals.getD 1 0]
  | _ => [vals.getD 0 0]

/-- The kernels of the generators of `sumArgs`. -/
def sumKernel (type : String) (params reads : ℕ → ℕ) : List ℕ :=
  if type = "ConstantGenerator" then [params 0]
  else if type = "ArithmeticBaseGenerator" then [reads 0 + reads 1]
  else [reads 0]

/-- Threads in launch order. -/
def ThreadOrder.launch : ThreadOrder where
  order l := l
  perm l := .refl l

private lemma getD_of_reads {vals : List ℕ} {reads : ℕ → ℕ}
    (hreads : ∀ j v, vals[j]? = some v → reads j = v) {j : ℕ} (hj : j < vals.length) :
    reads j = vals.getD j 0 := by
  rw [List.getD_eq_getElem _ _ hj]
  exact hreads j _ (List.getElem?_eq_getElem hj)

lemma sumKernel_computes : KernelsCompute sumArgs sumRunOnce sumKernel := by
  intro g hg params reads vals hparams hlen hreads
  have hg' : g < 4 := hg
  interval_cases g
  · have h₀ : params 0 = 7 := hparams 0 7 rfl
    simp [sumKernel, sumRunOnce, sumArgs, BuildArgs.generator, h₀]
  · have h₀ : params 0 = 8 := hparams 0 8 rfl
    simp [sumKernel, sumRunOnce, sumArgs, BuildArgs.generator, h₀]
  · have hlen' : vals.length = 2 := hlen
    have h₀ := getD_of_reads hreads (show 0 < vals.length by omega)
    have h₁ := getD_of_reads hreads (show 1 < vals.length by omega)
    simp [sumKernel, sumRunOnce, sumArgs, BuildArgs.generator, h₀, h₁]
  · have hlen' : vals.length = 2 := hlen
    have h₀ := getD_of_reads hreads (show 0 < vals.length by omega)
    simp [sumKernel, sumRunOnce, sumArgs, BuildArgs.generator, h₀]

/-- The values of `sumArgs` at the input 5. -/
def sumValues (r : ℕ) : ℕ := [7, 12, 8, 12, 5].getD r 0

lemma sumValues_consistent : Consistent sumArgs sumRunOnce [5] sumValues where
  length := rfl
  input := by decide
  output := by
    intro g hg
    have hg' : g < 4 := hg
    interval_cases g <;> decide

lemma sumArgs_plan : ∃ s p, WitnessService.schedule .insertion sumArgs .custom = .ok s ∧
    s.Fits sumArgs ∧ sumArgs.plan s = .ok p := by
  have hcheck : (match WitnessService.schedule .insertion sumArgs .custom with
      | .error _ => false
      | .ok s => decide ((∀ k, sumArgs.origin k + s.size sumArgs k (s.levels.maxLevel + 1) < 2 ^ 32) ∧
          sumArgs.n < 2 ^ 32) && (sumArgs.plan s).isOk) = true := by decide
  cases hs : WitnessService.schedule .insertion sumArgs .custom with
  | error e => simp [hs] at hcheck
  | ok s =>
    rw [hs] at hcheck
    simp only [Bool.and_eq_true, decide_eq_true_eq] at hcheck
    cases hp : sumArgs.plan s with
    | error e =>
      rw [hp] at hcheck
      cases hcheck.2
    | ok p => exact ⟨s, p, rfl, hcheck.1, hp⟩

/-- `n` inputs, the last of which is copied to the first of two wires; the second is random. -/
def manyInputs (n : ℕ) : BuildArgs where
  inputTargets := (List.range n).map .virtualTarget
  generators := [⟨"RandomValueGenerator", [], [.wire 0 1], []⟩]
  representativeMap := (n + 1) :: (List.range (n + 1)).map (· + 1)
  numWires := 2
  degree := 1
  wires_le := by simp
  rep_lt := by
    intro r hr
    simp only [List.mem_cons, List.mem_map, List.mem_range] at hr
    simp only [List.length_cons, List.length_map, List.length_range]
    omega
  inputs_lt := by
    intro t ht
    obtain ⟨k, hk, rfl⟩ := List.mem_map.mp ht
    have := List.mem_range.mp hk
    simp only [Target.index, List.length_cons, List.length_map, List.length_range]
    omega
  watch_lt := by simp
  outputs_lt := by simp [Target.index]

namespace manyInputs

variable {n : ℕ}

lemma generator_lt {g : ℕ} (hg : g < (manyInputs n).n) : g = 0 := Nat.lt_one_iff.mp hg

lemma watchReps_zero : (manyInputs n).watchReps 0 = [] := rfl

lemma outputReps_zero : (manyInputs n).outputReps 0 = [1] := by
  simp [BuildArgs.outputReps, BuildArgs.generator, BuildArgs.rep, manyInputs, Target.index]

lemma rep_wire : (manyInputs n).rep (.wire 0 0) = n + 1 := rfl

lemma rep_virtualTarget {k : ℕ} (hk : k < n) :
    (manyInputs n).rep (.virtualTarget k) = k + 2 := by
  have hk' : 1 + k < n + 1 := by omega
  have hindex : 1 * 2 + k = (1 + k) + 1 := by omega
  simp only [BuildArgs.rep, manyInputs, Target.index, hindex, List.getD_cons_succ]
  rw [List.getD_eq_getElem _ _ (by simpa using hk'), List.getElem_map, List.getElem_range]
  omega

lemma allReady : (manyInputs n).AllReady := by
  intro i hi
  obtain rfl := generator_lt hi
  exact .intro 0 (fun _ => 0) (by simp [watchReps_zero]) (by simp [watchReps_zero])

lemma consistent : Consistent (manyInputs n) (fun _ _ => [1]) (List.replicate n 1) fun _ => 1 where
  length := by simp [manyInputs]
  input := by
    intro tv htv
    exact List.eq_of_mem_replicate (List.of_mem_zip htv).2
  output := by
    intro g hg
    obtain rfl := generator_lt hg
    rw [outputReps_zero]
    rfl

lemma kernelsCompute :
    KernelsCompute (manyInputs n) (fun _ _ => [1]) fun _ _ _ => [1] :=
  fun _ _ _ _ _ _ _ _ => rfl

/-- The slot of the last input is the one that means no slot. -/
lemma inputSlots_last (hn : n = 2 ^ 32) : (manyInputs n).inputSlots (n + 1) = u32Max := by
  have hmem : n + 1 ∈ (manyInputs n).inputReps := by
    refine List.mem_map.mpr ⟨.virtualTarget (n - 1), ?_, ?_⟩
    · exact List.mem_map.mpr ⟨n - 1, List.mem_range.mpr (by omega), rfl⟩
    · rw [rep_virtualTarget (by omega)]
      omega
  obtain ⟨k, hk, heq⟩ := ((manyInputs n).inputSlots_spec (n + 1)).2 hmem
  obtain ⟨hlt, hget⟩ := List.getElem?_eq_some_iff.mp hk
  have hlt' : k < n := by simpa [BuildArgs.inputReps, manyInputs] using hlt
  have hrep : (manyInputs n).inputReps[k] = k + 2 := by
    rw [← rep_virtualTarget hlt']
    simp [BuildArgs.inputReps, manyInputs]
  rw [hrep] at hget
  rw [heq, u32_of_lt (by omega)]
  unfold u32Max
  omega

end manyInputs

private lemma foldlM_ok {ε σ α : Type*} {f : σ → α → Except ε σ} (P : σ → Prop) {l : List α}
    (hf : ∀ s, P s → ∀ x ∈ l, ∃ s', f s x = .ok s' ∧ P s') {s : σ} (hs : P s) :
    ∃ s', l.foldlM f s = .ok s' ∧ P s' := by
  induction l generalizing s with
  | nil => exact ⟨s, rfl, hs⟩
  | cons x l ih =>
    obtain ⟨s₁, hs₁, hP⟩ := hf s hs x (by simp)
    obtain ⟨s', hs', hP'⟩ := ih (fun s hs y hy => hf s hs y (by simp [hy])) hP
    refine ⟨s', ?_, hP'⟩
    rw [List.foldlM_cons, hs₁]
    exact hs'

/-- Generators without dependencies and parameters never overflow the vectors of the plan, and
representatives they do not populate keep the slot they have. -/
lemma BuildArgs.plan_of_no_watch {s : Schedule} {r : ℕ}
    (hlt : ∀ l ty, ∀ g ∈ (s.layer l).getD ty [], g < a.n)
    (hwatch : ∀ g < a.n, a.watchReps g = []) (hparams : ∀ g < a.n, (a.generator g).params = [])
    (hr : ∀ g < a.n, r ∉ a.outputReps g) :
    ∃ p, a.plan s = .ok p ∧ p.writeMap r = a.inputSlots r := by
  have hgen : ∀ num st, ∀ gi : ℕ × ℕ, gi.1 < a.n → ∃ st', a.planGenerator num st gi = .ok st' ∧
      st'.writeMap r = st.writeMap r := by
    intro num st gi hgi
    refine ⟨{ st with
      writeMap := claimSlots (fun j => u32 (st.writeStart + u32 (gi.2 + j * num)))
        (a.outputReps gi.1) st.writeMap }, ?_, ?_⟩
    · simp only [BuildArgs.planGenerator, hwatch _ hgi, hparams _ hgi, storeAll]
      rfl
    · exact (claimSlots_spec (fun j => u32 (st.writeStart + u32 (gi.2 + j * num)))
        (a.outputReps gi.1) st.writeMap r).2.1 (hr _ hgi)
  have hbatch : ∀ l acc, ∀ b ∈ (s.layer l).toList, ∃ acc', a.planBatch l acc b = .ok acc' ∧
      acc'.1.writeMap r = acc.1.writeMap r := by
    intro l acc b hb
    obtain ⟨st, hst, hsame⟩ := foldlM_ok (f := a.planGenerator b.2.length)
      (fun st => st.writeMap r = acc.1.writeMap r) (l := b.2.zipIdx)
      (by
        intro st hst gi hgi
        have hmem : gi.1 ∈ b.2 := by
          rw [← List.zipIdx_map_fst 0 b.2]
          exact List.mem_map_of_mem hgi
        rw [← Batches.mem_toList hb] at hmem
        obtain ⟨st', hst', hsame⟩ := hgen b.2.length st gi (hlt l b.1 _ hmem)
        exact ⟨st', hst', hsame.trans hst⟩) rfl
    refine ⟨_, by simp only [BuildArgs.planBatch, hst]; rfl, ?_⟩
    exact hsame
  obtain ⟨acc, hacc, hsame⟩ := foldlM_ok (f := a.planLayer s.layer)
    (fun acc => acc.1.writeMap r = a.inputSlots r) (l := List.range (s.levels.maxLevel + 1))
    (by
      intro acc hacc l _
      obtain ⟨out, hout, hsame⟩ := foldlM_ok (f := a.planBatch l)
        (fun acc' => acc'.1.writeMap r = a.inputSlots r) (l := (s.layer l).toList)
        (by
          intro acc' hacc' b hb
          obtain ⟨acc'', h₁, h₂⟩ := hbatch l acc' b hb
          exact ⟨acc'', h₁, h₂.trans hacc'⟩)
        (s := (acc.1, [])) hacc
      refine ⟨(out.1, acc.2 ++ [out.2]), ?_, hsame⟩
      simp only [BuildArgs.planLayer, hout]
      rfl)
    (s := (a.planInit, [])) rfl
  refine ⟨⟨acc.2, acc.1.writeMap, acc.1.readMap, acc.1.params⟩, ?_, hsame⟩
  simp only [BuildArgs.plan, hacc]
  rfl

end MegaZK
