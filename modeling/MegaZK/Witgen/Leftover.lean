import MegaZK.Witgen.Placement

/-! # The leftover loop

The last phase of the custom mode places the largest group of generators that may share a level,
until none remains. A remaining generator may always take its latest level, so there is a group,
and every iteration leaves fewer generators. -/

namespace MegaZK

variable {h : HashOrder} {a : BuildArgs} {lv : Levels}

/-! ### Buckets and groups -/

/-- The generators in the bucket of a level and a type. -/
def Buckets.at (m : Buckets) (level : ℕ) (ty : String) : List ℕ :=
  (m.getD level ∅).getD ty []

lemma Buckets.at_push (m : Buckets) (level level' : ℕ) (ty ty' : String) (g : ℕ) :
    (m.push level ty g).at level' ty' =
      if level = level' ∧ ty = ty' then m.at level ty ++ [g] else m.at level' ty' := by
  unfold Buckets.at
  rw [Buckets.push, Std.TreeMap.getD_alter]
  simp only [Std.LawfulEqCmp.compare_eq_iff_eq, Option.getD_some]
  by_cases hlevel : level = level'
  · subst hlevel
    rw [if_pos rfl, Batches.getD_push, ← Std.TreeMap.getD_eq_getD_getElem?]
    simp
  · simp [hlevel]

lemma Buckets.at_foldl_push (levels : List ℕ) (hnodup : levels.Nodup) (m : Buckets)
    (ty ty' : String) (g level : ℕ) :
    (levels.foldl (fun m l => m.push l ty g) m).at level ty' =
      if level ∈ levels ∧ ty = ty' then m.at level ty ++ [g] else m.at level ty' := by
  induction levels generalizing m with
  | nil => simp
  | cons l levels ih =>
    obtain ⟨hl, hnodup⟩ := List.nodup_cons.mp hnodup
    rw [List.foldl_cons, ih hnodup, Buckets.at_push, Buckets.at_push]
    by_cases hlevel : level = l
    · subst hlevel
      by_cases hty : ty = ty' <;> simp [hl, hty]
    · have hlevel' : ¬ l = level := fun e => hlevel e.symm
      simp [hlevel, hlevel']

/-- May the leftover generator `g` take `level`? -/
def Allowed (h : HashOrder) (lv : Levels) (s : Placement) (level g : ℕ) : Prop :=
  earliest h lv s g ≤ level ∧ level ≤ lv.alap g

instance (s : Placement) (level g : ℕ) : Decidable (Allowed h lv s level g) :=
  inferInstanceAs (Decidable (_ ∧ _))

/-- A bucket holds the remaining generators of its type that may take its level. -/
lemma at_levelBuckets (s : Placement) (remaining : List ℕ) (level : ℕ) (ty : String) :
    (levelBuckets h a lv s remaining).at level ty =
      (h.iter .remaining remaining).filter fun g =>
        Allowed h lv s level g ∧ (a.generator g).id = ty := by
  unfold levelBuckets
  have key : ∀ (gs : List ℕ) (m : Buckets),
      (gs.foldl (fun m g =>
        (List.range' (earliest h lv s g) (lv.alap g + 1 - earliest h lv s g)).foldl
          (fun m level => m.push level (a.generator g).id g) m) m).at level ty =
      m.at level ty ++ gs.filter fun g =>
        Allowed h lv s level g ∧ (a.generator g).id = ty := by
    intro gs
    induction gs with
    | nil => simp
    | cons g gs ih =>
      intro m
      rw [List.foldl_cons, ih, Buckets.at_foldl_push _ List.nodup_range']
      have hrange : level ∈ List.range' (earliest h lv s g)
          (lv.alap g + 1 - earliest h lv s g) ↔ Allowed h lv s level g := by
        rw [List.mem_range'_1, Allowed]
        omega
      simp only [hrange, List.filter_cons, decide_eq_true_eq]
      split_ifs with hg
      · obtain ⟨-, rfl⟩ := hg
        simp
      · rfl
  rw [key]
  simp [Buckets.at]

lemma Buckets.mem_groups {m : Buckets} {b : Group} (hb : b ∈ m.groups) :
    b.gens = m.at b.level b.type := by
  obtain ⟨⟨level, types⟩, hlevel, hb⟩ := List.mem_flatMap.mp hb
  obtain ⟨⟨ty, gens⟩, hty, rfl⟩ := List.mem_map.mp hb
  rw [Std.TreeMap.mem_toList_iff_getElem?_eq_some] at hlevel hty
  simp only at hlevel hty
  simp [Buckets.at, Std.TreeMap.getD_eq_getD_getElem?, hlevel, hty]

lemma Buckets.exists_group {m : Buckets} {level : ℕ} {ty : String}
    (hne : m.at level ty ≠ []) :
    ∃ b ∈ m.groups, b.level = level ∧ b.type = ty ∧ b.gens ≠ [] := by
  unfold Buckets.at at hne
  simp only [Std.TreeMap.getD_eq_getD_getElem?] at hne
  cases hlevel : m[level]? with
  | none => simp [hlevel] at hne
  | some types =>
    cases hty : types[ty]? with
    | none => simp [hlevel, hty] at hne
    | some gens =>
      simp only [hlevel, hty, Option.getD_some] at hne
      refine ⟨⟨level, ty, gens⟩, ?_, rfl, rfl, hne⟩
      exact List.mem_flatMap.mpr ⟨(level, types),
        Std.TreeMap.mem_toList_iff_getElem?_eq_some.mpr hlevel,
        List.mem_map.mpr ⟨(ty, gens),
          Std.TreeMap.mem_toList_iff_getElem?_eq_some.mpr hty, rfl⟩⟩

/-- The best group is the first of the largest ones. -/
lemma bestGroup_first (gs : List Group) :
    (∀ b ∈ gs, b.gens.length ≤ (bestGroup gs).elim 0 fun b => b.gens.length) ∧
      ∀ b, bestGroup gs = some b → ∃ pre post, gs = pre ++ b :: post ∧
        (∀ c ∈ pre, c.gens.length < b.gens.length) ∧
        ∀ c ∈ post, c.gens.length ≤ b.gens.length := by
  induction gs using List.reverseRecOn with
  | nil => simp [bestGroup]
  | append_singleton gs g ih =>
    obtain ⟨hle, hfirst⟩ := ih
    have hstep : bestGroup (gs ++ [g]) =
        if g.gens.length > ((bestGroup gs).elim 0 fun b => b.gens.length) then some g
        else bestGroup gs := by
      simp [bestGroup]
    rw [hstep]
    split_ifs with hlt
    · refine ⟨?_, ?_⟩
      · intro b hb
        rcases List.mem_append.mp hb with hb | hb
        · exact (lt_of_le_of_lt (hle b hb) hlt).le
        · rw [List.mem_singleton.mp hb]
          rfl
      · rintro b ⟨⟩
        exact ⟨gs, [], rfl, fun c hc => lt_of_le_of_lt (hle c hc) hlt, by simp⟩
    · refine ⟨?_, ?_⟩
      · intro b hb
        rcases List.mem_append.mp hb with hb | hb
        · exact hle b hb
        · rw [List.mem_singleton.mp hb]
          exact not_lt.mp hlt
      · intro b hb
        obtain ⟨pre, post, rfl, hpre, hpost⟩ := hfirst b hb
        rw [hb, Option.elim_some, gt_iff_lt, not_lt] at hlt
        refine ⟨pre, post ++ [g], by simp, hpre, ?_⟩
        intro c hc
        rcases List.mem_append.mp hc with hc | hc
        · exact hpost c hc
        · rw [List.mem_singleton.mp hc]
          exact hlt

lemma mem_of_bestGroup {gs : List Group} {b : Group} (hb : bestGroup gs = some b) : b ∈ gs := by
  obtain ⟨pre, post, rfl, -, -⟩ := (bestGroup_first gs).2 b hb
  simp

/-- There is a best group, and it is not empty, if one of the groups is not. -/
lemma bestGroup_spec {gs : List Group} (hne : ∃ b ∈ gs, b.gens ≠ []) :
    ∃ b ∈ gs, bestGroup gs = some b ∧ b.gens ≠ [] := by
  obtain ⟨c, hc, hgens⟩ := hne
  have hle := (bestGroup_first gs).1 c hc
  rw [← List.length_pos_iff] at hgens
  cases hbest : bestGroup gs with
  | none =>
    rw [hbest, Option.elim_none] at hle
    omega
  | some b =>
    rw [hbest, Option.elim_some] at hle
    exact ⟨b, mem_of_bestGroup hbest, rfl, List.length_pos_iff.mp (by omega)⟩

lemma earliest_spec (h : HashOrder) (lv : Levels) (s : Placement) (g : ℕ) :
    lv.asap g ≤ earliest h lv s g ∧
      (∀ p ∈ lv.pred g, ∀ level, s.scheduled p = some level → level < earliest h lv s g) ∧
      (∀ p ∈ lv.pred g, s.scheduled p = none → lv.alap p < earliest h lv s g) ∧
      ∀ m, lv.asap g ≤ m →
        (∀ p ∈ lv.pred g, ((s.scheduled p).getD (lv.alap p)) < m) → earliest h lv s g ≤ m := by
  have hfold : earliest h lv s g = (h.iter (.pred g) (lv.pred g)).foldl
      (fun r p => max r ((s.scheduled p).getD (lv.alap p) + 1)) (lv.asap g) := by
    unfold earliest
    apply List.foldl_ext
    intro r p _
    cases s.scheduled p <;> rfl
  have hmem : ∀ p ∈ lv.pred g, (s.scheduled p).getD (lv.alap p) + 1 ≤ earliest h lv s g := by
    intro p hp
    rw [hfold]
    exact le_foldl_max_of_mem (f := fun p => (s.scheduled p).getD (lv.alap p) + 1)
      ((h.perm _ _).mem_iff.mpr hp) _
  refine ⟨?_, ?_, ?_, ?_⟩
  · rw [hfold]
    exact le_foldl_max (fun p => (s.scheduled p).getD (lv.alap p) + 1) _ _
  · intro p hp level hlevel
    simpa [hlevel] using hmem p hp
  · intro p hp hnone
    simpa [hnone] using hmem p hp
  · intro m hm hpred
    rw [hfold]
    refine foldl_max_le (f := fun p => (s.scheduled p).getD (lv.alap p) + 1) hm ?_
    intro p hp
    exact hpred p ((h.perm _ _).mem_iff.mp hp)

/-- A leftover generator always has a level it may take: its latest one. -/
lemma Ordered.earliest_le (hlv : lv.Increasing a) {s : Placement} (hs : Ordered a lv s.scheduled)
    {g : ℕ} (hg : g < a.n) : earliest h lv s g ≤ lv.alap g := by
  refine (earliest_spec h lv s g).2.2.2 _ (hlv.asap_le_alap g hg) ?_
  intro p hp
  have hlt := hlv.alap_lt g hg p hp
  cases hsched : s.scheduled p with
  | none => simpa using hlt
  | some level =>
    have := (hs.range p (hlv.pred_lt g hg p hp) level hsched).2
    simp only [Option.getD_some]
    omega

/-! ### One iteration -/

/-- The state of the leftover loop. -/
structure Leftover where
  remaining : List ℕ
  placement : Placement

/-- What the level-by-level fill leaves to the loop. -/
def Leftover.start (a : BuildArgs) (lv : Levels) : Leftover where
  remaining := ((fill a lv (placeCritical a lv)).remainingByType.toList.map Prod.snd).flatten
  placement := (fill a lv (placeCritical a lv)).placement

/-- Place a group on its level. -/
def Leftover.place (s : Leftover) (best : Group) : Leftover where
  remaining := s.remaining.filter (· ∉ best.gens)
  placement := best.gens.foldl (Placement.place best.type best.level) s.placement

/-- One iteration of the loop: place the best group. -/
def leftoverStep (h : HashOrder) (a : BuildArgs) (lv : Levels) (s : Leftover) :
    Except String Leftover :=
  match bestGroup (levelBuckets h a lv s.placement s.remaining).groups with
  | none => .error "no schedulable generators"
  | some best => .ok (s.place best)

lemma placeLeftover_succ (fuel : ℕ) {s s' : Leftover} (hne : s.remaining ≠ [])
    (hstep : leftoverStep h a lv s = .ok s') :
    placeLeftover h a lv (fuel + 1) s.remaining s.placement =
      placeLeftover h a lv fuel s'.remaining s'.placement := by
  unfold leftoverStep at hstep
  rw [placeLeftover, if_neg hne]
  cases hbest : bestGroup (levelBuckets h a lv s.placement s.remaining).groups with
  | none => simp [hbest] at hstep
  | some best =>
    rw [hbest] at hstep
    cases hstep
    rfl

/-- The invariant of the loop: the remaining generators are the ones that are not placed. -/
structure Leftover.Inv (a : BuildArgs) (lv : Levels) (s : Leftover) : Prop where
  sound : s.placement.Sound a
  ordered : Ordered a lv s.placement.scheduled
  nodup : s.remaining.Nodup
  mem : ∀ g, g ∈ s.remaining ↔ g < a.n ∧ s.placement.scheduled g = none

lemma Leftover.Inv.start (hlv : lv.Increasing a) : (Leftover.start a lv).Inv a lv := by
  have hfill := fill_inv hlv sound_placeCritical (ordered_placeCritical hlv)
  exact ⟨hfill.sound, hfill.ordered, hfill.remaining.1, hfill.remaining.2⟩

/-- A group of the buckets: remaining generators of one id that may take its level. -/
lemma mem_gens {s : Placement} {remaining : List ℕ} {best : Group}
    (hbest : best ∈ (levelBuckets h a lv s remaining).groups) {g : ℕ} (hg : g ∈ best.gens) :
    g ∈ remaining ∧ Allowed h lv s best.level g ∧ (a.generator g).id = best.type := by
  rw [Buckets.mem_groups hbest, at_levelBuckets, List.mem_filter, (h.perm _ _).mem_iff,
    decide_eq_true_eq] at hg
  exact hg

/-- As long as generators remain, an iteration finds a group, places it and leaves fewer. -/
lemma Leftover.Inv.step (hlv : lv.Increasing a) {s : Leftover} (hs : s.Inv a lv)
    (hne : s.remaining ≠ []) :
    ∃ best s', bestGroup (levelBuckets h a lv s.placement s.remaining).groups = some best ∧
      best.gens ≠ [] ∧ leftoverStep h a lv s = .ok s' ∧ s'.Inv a lv ∧
      s'.remaining.length < s.remaining.length := by
  have hbucket : ∃ b ∈ (levelBuckets h a lv s.placement s.remaining).groups, b.gens ≠ [] := by
    obtain ⟨g, hg⟩ := List.exists_mem_of_ne_nil _ hne
    have hgn := ((hs.mem g).mp hg).1
    have hmem : g ∈ (levelBuckets h a lv s.placement s.remaining).at (lv.alap g)
        (a.generator g).id := by
      rw [at_levelBuckets]
      refine List.mem_filter.mpr ⟨(h.perm _ _).mem_iff.mpr hg, ?_⟩
      simpa [Allowed] using hs.ordered.earliest_le hlv hgn
    obtain ⟨b, hb, -, -, hgens⟩ := Buckets.exists_group (List.ne_nil_of_mem hmem)
    exact ⟨b, hb, hgens⟩
  obtain ⟨best, hbest, hsel, hgens⟩ := bestGroup_spec hbucket
  have hgroup := fun g hg => mem_gens hbest (g := g) hg
  have hnodup : best.gens.Nodup := by
    rw [Buckets.mem_groups hbest, at_levelBuckets]
    exact ((h.perm _ _).nodup_iff.mpr hs.nodup).filter _
  have hfree : ∀ g ∈ best.gens, s.placement.scheduled g = none :=
    fun g hg => ((hs.mem g).mp (hgroup g hg).1).2
  have hplace : (s.place best).placement = placeAt a (fun _ => best.level) best.gens s.placement :=
    foldl_place_eq_placeAt best.level (fun g hg => (hgroup g hg).2.2) s.placement
  refine ⟨best, s.place best, hsel, hgens, by simp only [leftoverStep, hsel], ?_, ?_⟩
  · refine ⟨?_, ?_, hs.nodup.filter _, ?_⟩
    · rw [hplace]
      exact hs.sound.placeAt (fun _ => best.level) hnodup
        (fun g hg => ((hs.mem g).mp (hgroup g hg).1).1) hfree
    · rw [hplace]
      refine hs.ordered.placeAt hlv hfree (fun g hg => ⟨?_, (hgroup g hg).2.1.2⟩) ?_
      · exact le_trans (earliest_spec h lv s.placement g).1 (hgroup g hg).2.1.1
      · intro g hg p hp
        obtain ⟨-, hsome, hnone, -⟩ := earliest_spec h lv s.placement g
        have hle := (hgroup g hg).2.1.1
        cases hsched : s.placement.scheduled p with
        | none => exact .inr (lt_of_lt_of_le (hnone p hp hsched) hle)
        | some level => exact .inl ⟨level, rfl, lt_of_lt_of_le (hsome p hp level hsched) hle⟩
    · intro g
      rw [hplace, Leftover.place, List.mem_filter, hs.mem, scheduled_placeAt]
      by_cases hg : g ∈ best.gens <;> simp [hg]
  · obtain ⟨g, hg⟩ := List.exists_mem_of_ne_nil _ hgens
    refine List.length_filter_lt_length_iff_exists.mpr ⟨g, (hgroup g hg).1, ?_⟩
    simpa using hg

/-! ### The whole loop -/

/-- The states that the loop goes through. -/
inductive Leftover.Reached (h : HashOrder) (a : BuildArgs) (lv : Levels) : Leftover → Prop
  | start : Reached h a lv (Leftover.start a lv)
  | iterate {s s' : Leftover} : Reached h a lv s → s.remaining ≠ [] →
      leftoverStep h a lv s = .ok s' → Reached h a lv s'

lemma Leftover.Reached.inv (hlv : lv.Increasing a) {s : Leftover}
    (hs : Leftover.Reached h a lv s) : s.Inv a lv := by
  induction hs with
  | start => exact .start hlv
  | iterate _ hne hstep ih =>
    obtain ⟨_, s', -, -, hstep', hs', -⟩ := ih.step (h := h) hlv hne
    rw [hstep] at hstep'
    exact Except.ok.inj hstep' ▸ hs'

/-- With an iteration for each remaining generator the loop ends, with all of them placed. -/
lemma Leftover.Reached.placeLeftover (hlv : lv.Increasing a) (fuel : ℕ) {s : Leftover}
    (hs : Leftover.Reached h a lv s) (hfuel : s.remaining.length ≤ fuel) :
    ∃ s', Leftover.Reached h a lv s' ∧ s'.remaining = [] ∧
      MegaZK.placeLeftover h a lv fuel s.remaining s.placement = .ok s'.placement := by
  induction fuel generalizing s with
  | zero =>
    have hnil : s.remaining = [] := List.eq_nil_of_length_eq_zero (by omega)
    exact ⟨s, hs, hnil, by simp [MegaZK.placeLeftover, hnil]⟩
  | succ fuel ih =>
    by_cases hnil : s.remaining = []
    · exact ⟨s, hs, hnil, by simp [MegaZK.placeLeftover, hnil]⟩
    obtain ⟨_, s₁, -, -, hstep, -, hlt⟩ := (hs.inv hlv).step (h := h) hlv hnil
    obtain ⟨s', hs', hdone, hrun⟩ := ih (hs.iterate hnil hstep) (by omega)
    exact ⟨s', hs', hdone, by rw [placeLeftover_succ fuel hnil hstep, hrun]⟩

/-- The dependency sets of `build` have no cycle, so the loop never runs out of groups: in every
state that it reaches all remaining generators may still take their latest level, the best group
is not empty, and placing it leaves fewer generators, until none remains. -/
theorem WitnessService.leftover_terminates (h : HashOrder) (a : BuildArgs) (lv : Levels)
    (hlevels : a.levels h = .ok lv) :
    (∀ s, Leftover.Reached h a lv s → s.remaining ≠ [] →
      (∀ g ∈ s.remaining, earliest h lv s.placement g ≤ lv.alap g) ∧
      ∃ best s', bestGroup (levelBuckets h a lv s.placement s.remaining).groups = some best ∧
        best.gens ≠ [] ∧ leftoverStep h a lv s = .ok s' ∧
        s'.remaining.length < s.remaining.length) ∧
    ∃ s, Leftover.Reached h a lv s ∧ s.remaining = [] ∧
      placeLeftover h a lv (Leftover.start a lv).remaining.length (Leftover.start a lv).remaining
        (Leftover.start a lv).placement = .ok s.placement := by
  obtain ⟨lv', hlv', -, hinc⟩ := a.levels_spec (BuildArgs.n_pos_of_levels hlevels)
  obtain rfl : lv' = lv := Except.ok.inj ((hlv' h).symm.trans hlevels)
  refine ⟨?_, Leftover.Reached.start.placeLeftover hinc _ (le_refl _)⟩
  intro s hs hne
  have hinv := hs.inv hinc
  obtain ⟨best, s', hbest, hgens, hstep, -, hlt⟩ := hinv.step (h := h) hinc hne
  refine ⟨?_, best, s', hbest, hgens, hstep, hlt⟩
  intro g hg
  exact hinv.ordered.earliest_le hinc ((hinv.mem g).mp hg).1

/-- A constant that a second generator depends on, and copies of two inputs to one copy class. -/
def copyArgs : BuildArgs where
  inputTargets := [.virtualTarget 0, .virtualTarget 1]
  generators :=
    [⟨"ConstantGenerator", [], [.wire 0 0], [7]⟩,
      ⟨"ArithmeticBaseGenerator", [.wire 0 0], [.wire 0 1], []⟩,
      ⟨"CopyGenerator", [.virtualTarget 0], [.wire 1 0], []⟩,
      ⟨"CopyGenerator", [.virtualTarget 1], [.wire 1 1], []⟩]
  representativeMap := [0, 1, 2, 2, 4, 5]
  numWires := 2
  degree := 2
  wires_le := by decide
  rep_lt := by decide
  inputs_lt := by decide
  watch_lt := by decide
  outputs_lt := by decide

theorem WitnessService.leftover_terminates_copy :
    ∃ lv, copyArgs.levels .insertion = .ok lv ∧
      (∀ s, Leftover.Reached .insertion copyArgs lv s → s.remaining ≠ [] →
        (∀ g ∈ s.remaining, earliest .insertion lv s.placement g ≤ lv.alap g) ∧
        ∃ best s',
          bestGroup (levelBuckets .insertion copyArgs lv s.placement s.remaining).groups =
            some best ∧
          best.gens ≠ [] ∧ leftoverStep .insertion copyArgs lv s = .ok s' ∧
          s'.remaining.length < s.remaining.length) ∧
      ∃ s, Leftover.Reached .insertion copyArgs lv s ∧ s.remaining = [] ∧
        placeLeftover .insertion copyArgs lv (Leftover.start copyArgs lv).remaining.length
          (Leftover.start copyArgs lv).remaining (Leftover.start copyArgs lv).placement =
          .ok s.placement := by
  obtain ⟨lv, hlv, -, -⟩ := copyArgs.levels_spec (by decide)
  exact ⟨lv, hlv .insertion,
    WitnessService.leftover_terminates .insertion copyArgs lv (hlv .insertion)⟩

end MegaZK
