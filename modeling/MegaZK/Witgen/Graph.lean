import MegaZK.Witgen.PlanMaps

/-! # The kernel graph

`build_graph` makes a kernel node depend on the nodes of the layer just before its own. A longest
chain of dependencies leaves a generator in every layer, so the nodes of a layer wait, through the
layers in between, for those of all earlier layers. -/

namespace MegaZK

variable {h : HashOrder} {a : BuildArgs} {κ : Type*}

/-! ### The graph -/

/-- A node of the graph: the parameters of the launch and the nodes that run before it. -/
structure GraphNode (κ : Type*) where
  function : κ
  gridDim : ℕ
  blockDim : ℕ
  batch : KernelBatch
  dependencies : List ℕ

/-- The nodes of the graph, and the nodes of the layer under construction. -/
structure GraphState (κ : Type*) where
  nodes : List (GraphNode κ)
  levelNodes : List ℕ

/-- Add the kernel node of one batch. -/
def addKernelNode (newFuncMap : String → Option κ) (previousNodes : List ℕ) (s : GraphState κ)
    (b : KernelBatch) : Except String (GraphState κ) :=
  match newFuncMap b.type with
  | none => .error "called `Option::unwrap()` on a `None` value"
  | some function => .ok
    { nodes := s.nodes ++ [⟨function, u32 (b.len + 128 - 1) / 128, 128, b, previousNodes⟩]
      levelNodes := s.levelNodes ++ [s.nodes.length] }

/-- Add the nodes of a layer. Those of the layer before are their dependencies. -/
def addLayer (newFuncMap : String → Option κ) (s : GraphState κ) (layer : List KernelBatch) :
    Except String (GraphState κ) :=
  layer.foldlM (addKernelNode newFuncMap s.levelNodes) { s with levelNodes := [] }

/-- `STREAMED_LAYER_THRESHOLD`. -/
def streamedLayerThreshold : ℕ := 40000

/-- `build_graph`. With more layers than the threshold there is no graph: the kernels are
launched one after the other. -/
def WitnessService.buildGraph (newFuncMap : String → Option κ) (p : WitnessPlan) :
    Except String (Option (List (GraphNode κ))) :=
  if p.layers.length > streamedLayerThreshold then .ok none
  else (p.layers.foldlM (addLayer newFuncMap) ⟨[], []⟩).map fun s => some s.nodes

/-- Node `v` waits for node `u`. -/
def DependsOn (nodes : List (GraphNode κ)) (v u : ℕ) : Prop :=
  ∃ y, nodes[v]? = some y ∧ u ∈ y.dependencies

/-! ### The layers of a plan -/

lemma BuildArgs.planBatch_snd {l : ℕ} {acc acc' : PlanState × List KernelBatch}
    {b : String × List ℕ} (hrun : a.planBatch l acc b = .ok acc') :
    ∃ kb : KernelBatch, acc'.2 = acc.2 ++ [kb] ∧ kb.layer = l ∧ (kb.type, kb.gens) = b := by
  unfold BuildArgs.planBatch at hrun
  simp only [bind, Except.bind] at hrun
  split at hrun
  · cases hrun
  · cases hrun
    exact ⟨_, rfl, rfl, rfl⟩

lemma BuildArgs.foldlM_planBatch_snd {l : ℕ} (batches : List (String × List ℕ))
    {acc acc' : PlanState × List KernelBatch}
    (hrun : batches.foldlM (a.planBatch l) acc = .ok acc') :
    ∃ new, acc'.2 = acc.2 ++ new ∧ (∀ b ∈ new, b.layer = l) ∧
      (new.map fun b => (b.type, b.gens)) = batches := by
  induction batches generalizing acc with
  | nil =>
    cases hrun
    exact ⟨[], by simp, by simp, rfl⟩
  | cons b batches ih =>
    rw [List.foldlM_cons] at hrun
    cases hstep : a.planBatch l acc b with
    | error e =>
      rw [hstep] at hrun
      cases hrun
    | ok acc₁ =>
      rw [hstep] at hrun
      obtain ⟨kb, hacc, hl, hb⟩ := BuildArgs.planBatch_snd hstep
      obtain ⟨new, hacc', hnew, hmap⟩ := ih hrun
      refine ⟨kb :: new, by simp [hacc', hacc], ?_, by simp [hb, hmap]⟩
      intro b' hb'
      rcases List.mem_cons.mp hb' with rfl | hb'
      · exact hl
      · exact hnew b' hb'

/-- A plan has the layers of its schedule, whatever its sizes are. -/
lemma BuildArgs.plan_follows {s : Schedule} {p : WitnessPlan} (hp : a.plan s = .ok p) :
    p.layers.length = s.levels.maxLevel + 1 ∧ WitnessPlan.Follows s p.layers := by
  have key : ∀ (m : ℕ) (st : PlanState) (layers : List (List KernelBatch)),
      (List.range m).foldlM (a.planLayer s.layer) (a.planInit, []) = .ok (st, layers) →
      layers.length = m ∧ WitnessPlan.Follows s layers := by
    intro m
    induction m with
    | zero =>
      intro st layers hrun
      cases hrun
      exact ⟨rfl, rfl, by simp⟩
    | succ m ih =>
      intro st layers hrun
      rw [List.range_succ, List.foldlM_append] at hrun
      cases hprev : (List.range m).foldlM (a.planLayer s.layer) (a.planInit, []) with
      | error e =>
        rw [hprev] at hrun
        cases hrun
      | ok prev =>
        obtain ⟨hlen, hfollows⟩ := ih prev.1 prev.2 hprev
        rw [hprev] at hrun
        simp only [List.foldlM_cons, List.foldlM_nil, bind, Except.bind, pure, Except.pure,
          BuildArgs.planLayer] at hrun
        split at hrun
        · cases hrun
        rename_i out hfold
        split at hfold
        · cases hfold
        rename_i out' hbatches
        cases hfold
        cases hrun
        obtain ⟨new, hnew, hlayer, hmap⟩ := BuildArgs.foldlM_planBatch_snd _ hbatches
        rw [List.nil_append] at hnew
        rw [← hnew] at hlayer hmap
        exact ⟨by simp [hlen], hfollows.concat (hlen ▸ hmap) (hlen ▸ hlayer)⟩
  unfold BuildArgs.plan at hp
  simp only [bind, Except.bind] at hp
  split at hp
  · cases hp
  rename_i out hrun
  cases hp
  exact key _ out.1 out.2 hrun

/-! ### The nodes of the graph -/

/-- What holds of the graph of the first layers: it has a node for every batch, `levelNodes` holds
the nodes of the last layer, and a node waits for all nodes of the layer before. -/
structure GraphInv (layers : List (List KernelBatch)) (s : GraphState κ) : Prop where
  batch : s.nodes.map (·.batch) = layers.flatten
  lt : ∀ x ∈ s.nodes, x.batch.layer < layers.length
  level : ∀ (u : ℕ) (x : GraphNode κ), s.nodes[u]? = some x →
    x.batch.layer + 1 = layers.length → u ∈ s.levelNodes
  waits : ∀ (v : ℕ) (y : GraphNode κ), s.nodes[v]? = some y →
    ∀ (u : ℕ) (x : GraphNode κ), s.nodes[u]? = some x →
      x.batch.layer + 1 = y.batch.layer → u ∈ y.dependencies

lemma foldlM_addKernelNode {newFuncMap : String → Option κ} {previousNodes : List ℕ}
    (bs : List KernelBatch) {s s' : GraphState κ}
    (hrun : bs.foldlM (addKernelNode newFuncMap previousNodes) s = .ok s') :
    ∃ new, s'.nodes = s.nodes ++ new ∧ new.map (·.batch) = bs ∧
      (∀ x ∈ new, x.dependencies = previousNodes) ∧
      s'.levelNodes = s.levelNodes ++ List.range' s.nodes.length bs.length := by
  induction bs generalizing s with
  | nil =>
    cases hrun
    exact ⟨[], by simp, rfl, by simp, by simp⟩
  | cons b bs ih =>
    rw [List.foldlM_cons] at hrun
    cases hf : newFuncMap b.type with
    | none =>
      simp only [addKernelNode, hf] at hrun
      cases hrun
    | some function =>
      simp only [addKernelNode, hf, bind, Except.bind] at hrun
      obtain ⟨new, hnodes, hmap, hdeps, hlevel⟩ := ih hrun
      refine ⟨⟨function, u32 (b.len + 128 - 1) / 128, 128, b, previousNodes⟩ :: new, ?_, ?_, ?_, ?_⟩
      · simp [hnodes]
      · simp [hmap]
      · intro x hx
        rcases List.mem_cons.mp hx with rfl | hx
        · rfl
        · exact hdeps x hx
      · simp [hlevel, List.range'_succ]

lemma GraphInv.addLayer {newFuncMap : String → Option κ} {layers : List (List KernelBatch)}
    {s s' : GraphState κ} (hs : GraphInv layers s) {layer : List KernelBatch}
    (hlayer : ∀ b ∈ layer, b.layer = layers.length)
    (hrun : MegaZK.addLayer newFuncMap s layer = .ok s') : GraphInv (layers ++ [layer]) s' := by
  obtain ⟨new, hnodes, hmap, hdeps, hlevel⟩ := foldlM_addKernelNode layer hrun
  rw [List.nil_append] at hlevel
  have hnew : ∀ x ∈ new, x.batch.layer = layers.length := by
    intro x hx
    exact hlayer x.batch (hmap ▸ List.mem_map_of_mem hx)
  -- a node of an earlier layer was there before
  have hold : ∀ (u : ℕ) (x : GraphNode κ), s'.nodes[u]? = some x →
      x.batch.layer < layers.length → s.nodes[u]? = some x := by
    intro u x hx hlt
    rw [hnodes] at hx
    by_cases hu : u < s.nodes.length
    · rwa [List.getElem?_append_left hu] at hx
    · rw [List.getElem?_append_right (not_lt.mp hu)] at hx
      have := hnew x (List.mem_of_getElem? hx)
      omega
  refine ⟨?_, ?_, ?_, ?_⟩
  · rw [hnodes, List.map_append, hmap, hs.batch, List.flatten_append, List.flatten_singleton]
  · intro x hx
    rw [hnodes, List.mem_append] at hx
    rw [List.length_append, List.length_singleton]
    rcases hx with hx | hx
    · exact Nat.lt_succ_of_lt (hs.lt x hx)
    · exact hnew x hx ▸ Nat.lt_succ_self _
  · intro u x hx hl
    rw [List.length_append, List.length_singleton, Nat.add_right_cancel_iff] at hl
    have hu := (List.getElem?_eq_some_iff.mp hx).1
    have hlen : new.length = layer.length := by rw [← hmap, List.length_map]
    rw [hnodes, List.length_append, hlen] at hu
    rw [hlevel, List.mem_range'_1]
    refine ⟨?_, hu⟩
    by_contra hlt
    rw [hnodes, List.getElem?_append_left (not_le.mp hlt)] at hx
    have := hs.lt x (List.mem_of_getElem? hx)
    omega
  · intro v y hy u x hx hxy
    by_cases hyl : y.batch.layer < layers.length
    · exact hs.waits v y (hold v y hy hyl) u x (hold u x hx (by omega)) hxy
    · -- a node of the new layer waits for the nodes of the last one
      have hmem : y ∈ new := by
        have := List.mem_of_getElem? hy
        rw [hnodes, List.mem_append] at this
        exact this.resolve_left fun h => hyl (hs.lt y h)
      rw [hnew y hmem] at hxy
      rw [hdeps y hmem]
      exact hs.level u x (hold u x hx (by omega)) hxy

lemma GraphInv.foldlM_addLayer {newFuncMap : String → Option κ}
    (layers : List (List KernelBatch))
    (hlayer : ∀ (l : ℕ) (bs : List KernelBatch), layers[l]? = some bs → ∀ b ∈ bs, b.layer = l)
    {s : GraphState κ} (hrun : layers.foldlM (MegaZK.addLayer newFuncMap) ⟨[], []⟩ = .ok s) :
    GraphInv layers s := by
  induction layers using List.reverseRecOn generalizing s with
  | nil =>
    cases hrun
    exact ⟨rfl, by simp, by simp, by simp⟩
  | append_singleton layers layer ih =>
    rw [List.foldlM_append] at hrun
    cases hprev : layers.foldlM (MegaZK.addLayer newFuncMap) ⟨[], []⟩ with
    | error e =>
      rw [hprev] at hrun
      cases hrun
    | ok s₁ =>
      rw [hprev] at hrun
      have hlast : MegaZK.addLayer newFuncMap s₁ layer = .ok s := by
        rw [← hrun]
        simp only [bind, Except.bind, List.foldlM_cons, List.foldlM_nil, pure, Except.pure]
        cases MegaZK.addLayer newFuncMap s₁ layer <;> rfl
      refine (ih ?_ hprev).addLayer ?_ hlast
      · intro l bs hl
        exact hlayer l bs (by
          rw [List.getElem?_append_left (List.getElem?_eq_some_iff.mp hl).1, hl])
      · exact hlayer layers.length layer List.getElem?_concat_length

/-- When no layer is empty, a node waits for the nodes of all earlier layers. -/
lemma GraphInv.transGen {layers : List (List KernelBatch)} {s : GraphState κ}
    (hs : GraphInv layers s) (hlayer : ∀ l < layers.length, ∃ b ∈ layers.flatten, b.layer = l)
    {u v : ℕ} {x y : GraphNode κ} (hx : s.nodes[u]? = some x) (hy : s.nodes[v]? = some y)
    (hlt : x.batch.layer < y.batch.layer) : Relation.TransGen (DependsOn s.nodes) v u := by
  obtain ⟨d, hd⟩ := Nat.exists_eq_add_of_lt hlt
  induction d generalizing v y with
  | zero => exact .single ⟨y, hy, hs.waits v y hy u x hx (by omega)⟩
  | succ d ih =>
    have hyl := hs.lt y (List.mem_of_getElem? hy)
    obtain ⟨b, hb, hbl⟩ := hlayer (x.batch.layer + d + 1) (by omega)
    rw [← hs.batch] at hb
    obtain ⟨z, hz, rfl⟩ := List.mem_map.mp hb
    obtain ⟨w, hw⟩ := List.mem_iff_getElem?.mp hz
    exact .head ⟨y, hy, hs.waits v y hy w z hw (by omega)⟩ (ih hw (by omega) hbl)

/-! ### Every layer has a kernel -/

/-- Every layer holds a generator of a longest chain of dependencies. -/
lemma Schedule.exists_mem_layer {s : Schedule} (hlevels : s.levels.Computed a)
    (hinc : s.levels.Increasing a) (hvalid : ∀ g < a.n, s.ValidAt a g) {l : ℕ}
    (hl : l ≤ s.levels.maxLevel) : ∃ b ∈ (s.layer l).toList, b.2 ≠ [] := by
  obtain ⟨g, hg, hasap, halap⟩ := hlevels.exists_critical hinc hl
  obtain ⟨level, hplaced, -, hge, hle, -⟩ := hvalid g hg
  obtain rfl : level = l := by omega
  obtain ⟨b, hb, hgb⟩ := hplaced.exists_mem_toList
  exact ⟨b, hb, List.ne_nil_of_mem hgb⟩

/-- In every mode the schedule leaves no layer empty, and in the graph of its plan every kernel
waits for all kernels of all earlier layers. -/
theorem WitnessService.buildGraph_ordered (h : HashOrder) (a : BuildArgs) (mode : Scheduling)
    (hn : 0 < a.n) :
    ∃ s, WitnessService.schedule h a mode = .ok s ∧
      (∀ l ≤ s.levels.maxLevel, ∃ b ∈ (s.layer l).toList, b.2 ≠ []) ∧
      ∀ (newFuncMap : String → Option κ) (p : WitnessPlan) (nodes : List (GraphNode κ)),
        a.plan s = .ok p → WitnessService.buildGraph newFuncMap p = .ok (some nodes) →
        ∀ (u v : ℕ) (x y : GraphNode κ), nodes[u]? = some x → nodes[v]? = some y →
          x.batch.layer < y.batch.layer → Relation.TransGen (DependsOn nodes) v u := by
  obtain ⟨s, hs, -, hcomputed, hinc, hvalid, -⟩ := schedule_spec h hn mode
  have hlayer := fun l hl => Schedule.exists_mem_layer hcomputed hinc hvalid (l := l) hl
  refine ⟨s, hs, hlayer, ?_⟩
  intro newFuncMap p nodes hp hgraph u v x y hx hy hlt
  obtain ⟨hlen, hfollows⟩ := BuildArgs.plan_follows hp
  unfold WitnessService.buildGraph at hgraph
  split_ifs at hgraph
  · cases hgraph
  cases hrun : p.layers.foldlM (addLayer newFuncMap) ⟨[], []⟩ with
  | error e =>
    rw [hrun] at hgraph
    cases hgraph
  | ok st =>
    rw [hrun] at hgraph
    cases hgraph
    refine (GraphInv.foldlM_addLayer p.layers hfollows.layer hrun).transGen ?_ hx hy hlt
    intro l hl
    obtain ⟨b, hb, -⟩ := hlayer l (by omega)
    have hget : p.layers[l]? = some p.layers[l] := List.getElem?_eq_getElem hl
    rw [← hfollows.getElem? hget] at hb
    obtain ⟨kb, hkb, -⟩ := List.mem_map.mp hb
    exact ⟨kb, List.mem_flatten.mpr ⟨_, List.getElem_mem hl, hkb⟩, hfollows.layer l _ hget kb hkb⟩

/-- The constants, the sum and the copy of `sumArgs` give a graph of three nodes. -/
lemma sumArgs_graph : ∃ s p nodes, WitnessService.schedule .insertion sumArgs .custom = .ok s ∧
    sumArgs.plan s = .ok p ∧
    WitnessService.buildGraph (fun _ => some ()) p = .ok (some nodes) ∧
    nodes.map (·.batch.layer) = [0, 1, 2] := by
  have hcheck : (match WitnessService.schedule .insertion sumArgs .custom with
      | .error _ => none
      | .ok s => match sumArgs.plan s with
        | .error _ => none
        | .ok p => match WitnessService.buildGraph (fun _ => some ()) p with
          | .error _ => none
          | .ok nodes => nodes.map fun ns => ns.map (·.batch.layer)) = some [0, 1, 2] := by
    decide
  cases hs : WitnessService.schedule .insertion sumArgs .custom with
  | error e => simp [hs] at hcheck
  | ok s =>
    cases hp : sumArgs.plan s with
    | error e => simp [hs, hp] at hcheck
    | ok p =>
      cases hg : WitnessService.buildGraph (fun _ => some ()) p with
      | error e => simp [hs, hp, hg] at hcheck
      | ok nodes =>
        simp only [hs, hp, hg, Option.map_eq_some_iff] at hcheck
        obtain ⟨ns, rfl, hns⟩ := hcheck
        exact ⟨s, p, ns, rfl, hp, hg, hns⟩

theorem WitnessService.buildGraph_ordered_sum :
    ∃ s p nodes, WitnessService.schedule .insertion sumArgs .custom = .ok s ∧
      sumArgs.plan s = .ok p ∧
      WitnessService.buildGraph (fun _ => some ()) p = .ok (some nodes) ∧
      Relation.TransGen (DependsOn nodes) 2 0 := by
  obtain ⟨s, p, nodes, hs, hp, hgraph, hlayers⟩ := sumArgs_graph
  obtain ⟨s', hs', -, hordered⟩ :=
    WitnessService.buildGraph_ordered (κ := Unit) .insertion sumArgs .custom (by decide)
  obtain rfl : s = s' := Except.ok.inj (hs.symm.trans hs')
  obtain ⟨x, hx, hxl⟩ : ∃ x, nodes[0]? = some x ∧ x.batch.layer = 0 := by
    have h₀ : (nodes.map (·.batch.layer))[0]? = some 0 := by rw [hlayers]; rfl
    rwa [List.getElem?_map, Option.map_eq_some_iff] at h₀
  obtain ⟨y, hy, hyl⟩ : ∃ y, nodes[2]? = some y ∧ y.batch.layer = 2 := by
    have h₂ : (nodes.map (·.batch.layer))[2]? = some 2 := by rw [hlayers]; rfl
    rwa [List.getElem?_map, Option.map_eq_some_iff] at h₂
  exact ⟨s, p, nodes, hs, hp, hgraph,
    hordered _ p nodes hp hgraph 0 2 x y hx hy (by omega)⟩

end MegaZK
