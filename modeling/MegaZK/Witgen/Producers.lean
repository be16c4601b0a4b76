import MegaZK.Witgen.Schedule

/-! # The producers of the targets

The search of `build` gives every watched target a producer that runs before its watchers, so
the dependency sets read off it form an acyclic graph. -/

namespace MegaZK

namespace Bfs

variable {a : BuildArgs}

/-! ### One target becomes available -/

lemma foldl_notify (ws : List ℕ) (hws : ws.Nodup) (s : Bfs) :
    ws.foldl notify s =
      { s with
        indegTarget := fun g => if g ∈ ws then s.indegTarget g - 1 else s.indegTarget g
        pushed := s.pushed ++ ws.filter (s.indegTarget · - 1 = 0) } := by
  induction ws generalizing s with
  | nil => simp
  | cons w ws ih =>
    obtain ⟨hw, hws⟩ := List.nodup_cons.mp hws
    rw [List.foldl_cons, ih hws]
    have hfilter : ws.filter ((notify s w).indegTarget · - 1 = 0) =
        ws.filter (s.indegTarget · - 1 = 0) := by
      apply List.filter_congr
      intro v hv
      have hne : v ≠ w := fun h => hw (h ▸ hv)
      simp [notify, hne]
    rw [hfilter]
    simp only [notify, Function.update_self, Bfs.mk.injEq, true_and]
    refine ⟨?_, ?_⟩
    · funext v
      by_cases hv : v = w
      · subst hv; simp [hw]
      · simp [hv]
    · by_cases hdeg : s.indegTarget w - 1 = 0 <;> simp [hdeg]

/-- `who` may provide `r`: it is an input, or a ready generator with the output `r`. -/
def Provides (a : BuildArgs) (order : List ℕ) (r : ℕ) : Producer → Prop
  | .input => r ∈ a.inputReps
  | .generator p => p ∈ order ∧ r ∈ a.outputReps p

lemma Provides.mono {order order' : List ℕ} (hsub : order ⊆ order') {r : ℕ} {who : Producer}
    (hp : Provides a order r who) : Provides a order' r who := by
  cases who with
  | input => exact hp
  | generator p => exact ⟨hsub hp.1, hp.2⟩

/-- What holds of the search after the generators `order` became ready, in this order. -/
structure Inv (a : BuildArgs) (order : List ℕ) (s : Bfs) : Prop where
  nodup : order.Nodup
  lt : ∀ g ∈ order, g < a.n
  indeg : ∀ g < a.n, s.indegTarget g =
    ((a.watchReps g).dedup.filter fun r => (s.targetProducer r).isNone).length
  ready : ∀ g < a.n, g ∈ order ↔ s.indegTarget g = 0
  before : ∀ g ∈ order, ∀ r ∈ a.watchReps g, ∀ p,
    s.targetProducer r = some (.generator p) → order.idxOf p < order.idxOf g
  provides : ∀ r who, s.targetProducer r = some who → Provides a order r who

/-- `s'` comes after `s`: provided targets keep their producer, and the generators that became
ready in between were pushed. -/
structure Grows (a : BuildArgs) (order : List ℕ) (s : Bfs) (order' : List ℕ) (s' : Bfs) :
    Prop where
  inv : Inv a order' s'
  pushed : ∃ new, s'.pushed = s.pushed ++ new ∧ order' = order ++ new
  producer : ∀ r, (s.targetProducer r).isSome → s'.targetProducer r = s.targetProducer r

lemma Grows.refl {order : List ℕ} {s : Bfs} (hI : Inv a order s) : Grows a order s order s :=
  ⟨hI, ⟨[], by simp, by simp⟩, fun _ _ => rfl⟩

lemma Grows.trans {order order' order'' : List ℕ} {s s' s'' : Bfs}
    (h : Grows a order s order' s') (h' : Grows a order' s' order'' s'') :
    Grows a order s order'' s'' := by
  obtain ⟨new, hpushed, rfl⟩ := h.pushed
  obtain ⟨new', hpushed', rfl⟩ := h'.pushed
  refine ⟨h'.inv, ⟨new ++ new', ?_, ?_⟩, ?_⟩
  · rw [hpushed', hpushed, List.append_assoc]
  · rw [List.append_assoc]
  · intro r hr
    rw [h'.producer r (by rw [h.producer r hr]; exact hr), h.producer r hr]

lemma Grows.subset {order order' : List ℕ} {s s' : Bfs} (h : Grows a order s order' s') :
    order ⊆ order' := by
  obtain ⟨new, -, rfl⟩ := h.pushed
  exact List.subset_append_left _ _

lemma Grows.isSome {order order' : List ℕ} {s s' : Bfs} (h : Grows a order s order' s') {r : ℕ}
    (hr : (s.targetProducer r).isSome) : (s'.targetProducer r).isSome := by
  rw [h.producer r hr]
  exact hr

/-- All targets watched by a ready generator have a producer. -/
lemma Inv.isSome_of_mem {order : List ℕ} {s : Bfs} (hI : Inv a order s) {g r : ℕ}
    (hg : g ∈ order) (hr : r ∈ a.watchReps g) : (s.targetProducer r).isSome := by
  have hdeg := (hI.ready g (hI.lt g hg)).mp hg
  rw [hI.indeg g (hI.lt g hg), List.length_eq_zero_iff, List.filter_eq_nil_iff] at hdeg
  have hsome := hdeg r (List.mem_dedup.mpr hr)
  simpa [Option.isSome_iff_ne_none] using hsome

/-- Providing `rep` removes it from the missing targets of its watchers only. -/
private lemma length_missing_update {s : Bfs} {rep : ℕ} (who : Producer)
    (hrep : s.targetProducer rep = none) (g : ℕ) :
    ((a.watchReps g).dedup.filter fun r =>
        (Function.update s.targetProducer rep (some who) r).isNone).length =
      if rep ∈ a.watchReps g then
        ((a.watchReps g).dedup.filter fun r => (s.targetProducer r).isNone).length - 1
      else ((a.watchReps g).dedup.filter fun r => (s.targetProducer r).isNone).length := by
  have hsplit : ((a.watchReps g).dedup.filter fun r =>
        (Function.update s.targetProducer rep (some who) r).isNone) =
      ((a.watchReps g).dedup.filter fun r => (s.targetProducer r).isNone).erase rep := by
    rw [((List.nodup_dedup _).filter _).erase_eq_filter, List.filter_filter]
    apply List.filter_congr
    intro r _
    by_cases hr : r = rep
    · subst hr; simp
    · simp [hr]
  rw [hsplit, List.length_erase]
  simp [hrep]

lemma Inv.produce {order : List ℕ} {s : Bfs} (hI : Inv a order s) (who : Producer) (rep : ℕ)
    (hwho : Provides a order rep who) :
    ∃ order', Grows a order s order' (produce a who s rep) ∧
      ((Bfs.produce a who s rep).targetProducer rep).isSome := by
  unfold Bfs.produce
  by_cases hrep : (s.targetProducer rep).isSome
  · rw [if_pos hrep]
    exact ⟨order, .refl hI, hrep⟩
  rw [if_neg hrep, foldl_notify _ (a.nodup_generatorIndicesByWatches rep)]
  have hnone : s.targetProducer rep = none := by simpa using hrep
  -- the generators that become ready with `rep`
  let new := (a.generatorIndicesByWatches rep).filter (s.indegTarget · - 1 = 0)
  have hwatch : ∀ g ∈ new, g < a.n ∧ rep ∈ a.watchReps g := by
    intro g hg
    exact a.mem_generatorIndicesByWatches.mp (List.mem_of_mem_filter hg)
  have hfresh : ∀ g ∈ new, g ∉ order := by
    intro g hg hmem
    have := hI.isSome_of_mem hmem (hwatch g hg).2
    exact hrep this
  have hproducer : ∀ r, (s.targetProducer r).isSome →
      Function.update s.targetProducer rep (some who) r = s.targetProducer r := by
    intro r hr
    have hne : r ≠ rep := by rintro rfl; exact hrep hr
    rw [Function.update_of_ne hne]
  have hindeg : ∀ g < a.n, (if g ∈ a.generatorIndicesByWatches rep then s.indegTarget g - 1
      else s.indegTarget g) = if rep ∈ a.watchReps g then s.indegTarget g - 1
      else s.indegTarget g := by
    intro g hg
    simp [a.mem_generatorIndicesByWatches, hg]
  have hprovides : ∀ r who', Function.update s.targetProducer rep (some who) r = some who' →
      Provides a order r who' := by
    intro r who' hp
    by_cases hr : r = rep
    · subst hr
      rw [Function.update_self] at hp
      exact Option.some.inj hp ▸ hwho
    · rw [Function.update_of_ne hr] at hp
      exact hI.provides r who' hp
  refine ⟨order ++ new, ⟨⟨?_, ?_, ?_, ?_, ?_, ?_⟩, ⟨new, rfl, rfl⟩, hproducer⟩, by simp⟩
  · refine List.nodup_append.mpr
      ⟨hI.nodup, (a.nodup_generatorIndicesByWatches rep).filter _, ?_⟩
    intro x hx y hy hxy
    subst hxy
    exact hfresh x hy hx
  · intro g hg
    rcases List.mem_append.mp hg with hg | hg
    · exact hI.lt g hg
    · exact (hwatch g hg).1
  · intro g hg
    rw [length_missing_update who hnone, ← hI.indeg g hg]
    exact hindeg g hg
  · intro g hg
    simp only [hindeg g hg]
    rw [List.mem_append, hI.ready g hg]
    simp only [new, List.mem_filter, a.mem_generatorIndicesByWatches, hg, true_and,
      decide_eq_true_eq]
    by_cases hr : rep ∈ a.watchReps g
    · have hpos : s.indegTarget g ≠ 0 := by
        intro hzero
        exact hrep (hI.isSome_of_mem ((hI.ready g hg).mpr hzero) hr)
      simp only [hr, true_and, ↓reduceIte]
      omega
    · simp [hr]
  · intro g hg r hr p hp
    obtain ⟨hpo, -⟩ := hprovides r _ hp
    rw [List.idxOf_append_of_mem hpo]
    rcases List.mem_append.mp hg with hg | hg
    · rw [List.idxOf_append_of_mem hg]
      exact hI.before g hg r hr p ((hproducer r (hI.isSome_of_mem hg hr)).symm.trans hp)
    · rw [List.idxOf_append_of_notMem (hfresh g hg)]
      have := List.idxOf_lt_length_of_mem hpo
      omega
  · intro r who' hp
    exact (hprovides r who' hp).mono (List.subset_append_left _ _)

/-! ### Whole runs of the search -/

lemma Inv.foldl_produce (who : Producer) (reps : List ℕ) {order : List ℕ} {s : Bfs}
    (hI : Inv a order s) (hwho : ∀ r ∈ reps, Provides a order r who) :
    ∃ order', Grows a order s order' (reps.foldl (Bfs.produce a who) s) ∧
      ∀ r ∈ reps, ((reps.foldl (Bfs.produce a who) s).targetProducer r).isSome := by
  induction reps generalizing order s with
  | nil => exact ⟨order, .refl hI, by simp⟩
  | cons r reps ih =>
    obtain ⟨order₁, hgrow, hsome⟩ := hI.produce who r (hwho r (by simp))
    obtain ⟨order₂, hgrow', hsome'⟩ :=
      ih hgrow.inv (fun r' hr' => (hwho r' (by simp [hr'])).mono hgrow.subset)
    refine ⟨order₂, hgrow.trans hgrow', ?_⟩
    intro r' hr'
    rcases List.mem_cons.mp hr' with rfl | hr'
    · exact hgrow'.isSome hsome
    · exact hsome' r' hr'

lemma Inv.foldl_outputs (cur : List ℕ) {order : List ℕ} {s : Bfs} (hI : Inv a order s)
    (hcur : ∀ g ∈ cur, g ∈ order) :
    ∃ order', Grows a order s order' (cur.foldl (outputs a) s) ∧
      ∀ g ∈ cur, ∀ r ∈ a.outputReps g,
        ((cur.foldl (outputs a) s).targetProducer r).isSome := by
  induction cur generalizing order s with
  | nil => exact ⟨order, .refl hI, by simp⟩
  | cons g cur ih =>
    obtain ⟨order₁, hgrow, hsome⟩ := hI.foldl_produce (.generator g) (a.outputReps g)
      (fun r hr => ⟨hcur g (by simp), hr⟩)
    obtain ⟨order₂, hgrow', hsome'⟩ :=
      ih hgrow.inv (fun g' hg' => hgrow.subset (hcur g' (by simp [hg'])))
    refine ⟨order₂, hgrow.trans hgrow', ?_⟩
    intro g' hg' r hr
    rcases List.mem_cons.mp hg' with rfl | hg'
    · exact hgrow'.isSome (hsome r hr)
    · exact hsome' g' hg' r hr

lemma Inv.init : Inv a (init a).pushed (init a) where
  nodup := List.nodup_range.filter _
  lt := by
    intro g hg
    exact List.mem_range.mp (List.mem_of_mem_filter hg)
  indeg := by
    intro g _
    simp [Bfs.init]
  ready := by
    intro g hg
    simp [Bfs.init, hg]
  before := by simp [Bfs.init]
  provides := by simp [Bfs.init]

/-- The rounds run every generator that becomes ready: at the end all outputs of the generators
in `order` are provided. -/
lemma Inv.rounds (fuel : ℕ) {done cur : List ℕ} {s : Bfs} (hI : Inv a (done ++ cur) s)
    (hdone : ∀ g ∈ done, ∀ r ∈ a.outputReps g, (s.targetProducer r).isSome)
    (hfuel : a.n ≤ done.length + fuel) :
    ∃ order s', rounds a fuel cur s = some s' ∧ Inv a order s' ∧
      (∀ g ∈ order, ∀ r ∈ a.outputReps g, (s'.targetProducer r).isSome) ∧
      ∀ r, (s.targetProducer r).isSome → (s'.targetProducer r).isSome := by
  have hlen : (done ++ cur).length ≤ a.n := by
    have hsub : done ++ cur ⊆ List.range a.n := fun v hv => List.mem_range.mpr (hI.lt v hv)
    simpa using (hI.nodup.subperm hsub).length_le
  rw [List.length_append] at hlen
  induction fuel generalizing done cur s with
  | zero =>
    have hcur : cur = [] := List.eq_nil_of_length_eq_zero (by omega)
    subst hcur
    exact ⟨done, s, by simp [Bfs.rounds], by simpa using hI, hdone, fun _ h => h⟩
  | succ fuel ih =>
    by_cases hcur : cur = []
    · subst hcur
      exact ⟨done, s, by simp [Bfs.rounds], by simpa using hI, hdone, fun _ h => h⟩
    · have hI₀ : Inv a (done ++ cur) { s with pushed := [] } :=
        ⟨hI.nodup, hI.lt, hI.indeg, hI.ready, hI.before, hI.provides⟩
      obtain ⟨order₁, hgrow, hsome⟩ :=
        hI₀.foldl_outputs cur (fun g hg => List.mem_append_right _ hg)
      obtain ⟨new, hpushed, rfl⟩ := hgrow.pushed
      rw [List.nil_append] at hpushed
      have hpos : 0 < cur.length := List.length_pos_iff.mpr hcur
      have hlen' : (done ++ cur ++ new).length ≤ a.n := by
        have hsub : done ++ cur ++ new ⊆ List.range a.n :=
          fun v hv => List.mem_range.mpr (hgrow.inv.lt v hv)
        simpa using (hgrow.inv.nodup.subperm hsub).length_le
      obtain ⟨order, s', hrun, hI', hout, hmono⟩ := ih hgrow.inv
        (by
          intro g hg r hr
          rcases List.mem_append.mp hg with hg | hg
          · exact hgrow.isSome (hdone g hg r hr)
          · exact hsome g hg r hr)
        (by rw [List.length_append]; omega)
        (by rw [List.length_append] at hlen'; exact hlen')
      refine ⟨order, s', ?_, hI', hout, fun r hr => hmono r (hgrow.isSome hr)⟩
      simpa [Bfs.rounds, hcur, hpushed] using hrun

/-- The search ends, with a producer for the inputs and for everything a ready generator
populates. -/
lemma run_spec (a : BuildArgs) :
    ∃ order s, run a = some s ∧ Inv a order s ∧
      (∀ g ∈ order, ∀ r ∈ a.outputReps g, (s.targetProducer r).isSome) ∧
      ∀ r ∈ a.inputReps, (s.targetProducer r).isSome := by
  obtain ⟨order, hgrow, hsome⟩ :=
    (Inv.init (a := a)).foldl_produce .input a.inputReps (fun _ hr => hr)
  obtain ⟨new, hpushed, rfl⟩ := hgrow.pushed
  have hI : Inv a ([] ++ (inputs a).pushed) (inputs a) := by
    rw [List.nil_append]
    change Inv a (List.foldl (Bfs.produce a .input) (Bfs.init a) a.inputReps).pushed _
    rw [hpushed]
    exact hgrow.inv
  obtain ⟨order, s, hrun, hI', hout, hmono⟩ := hI.rounds a.n (by simp) (by simp)
  exact ⟨order, s, hrun, hI', hout, fun r hr => hmono r (hsome r hr)⟩

/-- When every generator becomes ready, the search reaches all of them. -/
lemma mem_order_of_ready {order : List ℕ} {s : Bfs} (hI : Inv a order s)
    (hout : ∀ g ∈ order, ∀ r ∈ a.outputReps g, (s.targetProducer r).isSome)
    (hin : ∀ r ∈ a.inputReps, (s.targetProducer r).isSome) {g : ℕ} (hg : g < a.n)
    (hready : a.Ready g) : g ∈ order := by
  induction hready with
  | intro g producer produced _ ih =>
    rw [hI.ready g hg, hI.indeg g hg, List.length_eq_zero_iff, List.filter_eq_nil_iff]
    intro r hr
    rw [List.mem_dedup] at hr
    have hsome : (s.targetProducer r).isSome := by
      by_cases hrin : r ∈ a.inputReps
      · exact hin r hrin
      · obtain ⟨hlt, hmem⟩ := produced r hr hrin
        exact hout _ (ih r hr hrin hlt) r hmem
    simpa [Option.isSome_iff_ne_none] using hsome

end Bfs

end MegaZK
