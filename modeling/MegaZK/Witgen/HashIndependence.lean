import MegaZK.Witgen.Acceptance

/-! # The order of the hash sets

`build` iterates over hash sets, in an order that differs from run to run. The level of every
generator does not depend on it: the passes solve equations that have one solution, and the
leftover loop chooses its groups by their sizes and by ordered maps. The order of the generators
inside a batch does depend on it, and with it which of two generators of one copy class provides
the value. -/

namespace MegaZK

variable {h h' : HashOrder} {a : BuildArgs} {lv : Levels}

/-! ### The choice of the best group -/

/-- The order of the groups: by level, then by type. -/
def Group.Before (b b' : Group) : Prop :=
  b.level < b'.level ∨ b.level = b'.level ∧ compare b.type b'.type = .lt

lemma Group.Before.asymm {b b' c c' : Group} (hb : b.Before b') (hc : c.Before c')
    (hl : c.level = b'.level) (ht : c.type = b'.type) (hl' : c'.level = b.level)
    (ht' : c'.type = b.type) : False := by
  rcases hb with hb | ⟨hb, hbt⟩ <;> rcases hc with hc | ⟨hc, hct⟩
  · omega
  · omega
  · omega
  · rw [ht, ht'] at hct
    have hswap : compare b'.type b.type = (compare b.type b'.type).swap := Std.OrientedCmp.eq_swap
    rw [hbt, hct] at hswap
    cases hswap

lemma Buckets.groups_pairwise (m : Buckets) : m.groups.Pairwise Group.Before := by
  rw [Buckets.groups, List.pairwise_flatMap]
  refine ⟨?_, ?_⟩
  · rintro ⟨level, types⟩ -
    rw [List.pairwise_map]
    exact (Std.TreeMap.ordered_keys_toList (t := types)).imp fun hlt => .inr ⟨rfl, hlt⟩
  · refine (Std.TreeMap.ordered_keys_toList (t := m)).imp ?_
    intro b b' hlt x hx y hy
    obtain ⟨_, _, rfl⟩ := List.mem_map.mp hx
    obtain ⟨_, _, rfl⟩ := List.mem_map.mp hy
    exact .inl (Nat.compare_eq_lt.mp hlt)

/-- The best group of `m` comes before every other group of the same size. -/
private lemma bestGroup_before {m m' : Buckets}
    (hlen : ∀ level ty, (m.at level ty).length = (m'.at level ty).length) {b b' : Group}
    (hb : b ∈ m.groups) (hgens : b.gens ≠ []) (hb' : bestGroup m'.groups = some b') :
    b.gens.length ≤ b'.gens.length ∧ (b'.gens.length ≤ b.gens.length →
      (b.level = b'.level ∧ b.type = b'.type) ∨
      ∃ c : Group, b'.Before c ∧ c.level = b.level ∧ c.type = b.type) := by
  rw [Buckets.mem_groups hb] at hgens ⊢
  have hne : m'.at b.level b.type ≠ [] := by
    rw [← List.length_pos_iff, ← hlen, List.length_pos_iff]
    exact hgens
  -- the group of `m'` with the level and the type of `b`
  obtain ⟨c, hc, hl, ht, -⟩ := Buckets.exists_group hne
  have hclen : (m.at b.level b.type).length = c.gens.length := by
    rw [Buckets.mem_groups hc, hl, ht, hlen]
  obtain ⟨hle, hfirst⟩ := bestGroup_first m'.groups
  obtain ⟨pre, post, heq, hpre, -⟩ := hfirst b' hb'
  have hc' := hle c hc
  rw [hb', Option.elim_some] at hc'
  refine ⟨hclen ▸ hc', fun hge => ?_⟩
  rw [heq, List.mem_append, List.mem_cons] at hc
  rcases hc with hc | rfl | hc
  · have := hpre c hc
    omega
  · exact .inl ⟨hl.symm, ht.symm⟩
  · have hsorted := m'.groups_pairwise
    rw [heq, List.pairwise_append] at hsorted
    exact .inr ⟨c, (List.pairwise_cons.mp hsorted.2.1).1 c hc, hl, ht⟩

/-- Buckets whose groups have the same sizes have the same best group. -/
lemma bestGroup_same {m m' : Buckets}
    (hlen : ∀ level ty, (m.at level ty).length = (m'.at level ty).length) {b b' : Group}
    (hb : b ∈ m.groups) (hgens : b.gens ≠ []) (hsel : bestGroup m.groups = some b)
    (hb' : b' ∈ m'.groups) (hgens' : b'.gens ≠ []) (hsel' : bestGroup m'.groups = some b') :
    b.level = b'.level ∧ b.type = b'.type := by
  obtain ⟨hle, hcase⟩ := bestGroup_before hlen hb hgens hsel'
  obtain ⟨hle', hcase'⟩ := bestGroup_before (fun l t => (hlen l t).symm) hb' hgens' hsel
  rcases hcase hle' with heq | ⟨c, hc, hl, ht⟩
  · exact heq
  rcases hcase' hle with ⟨hl', ht'⟩ | ⟨c', hc', hl', ht'⟩
  · exact ⟨hl'.symm, ht'.symm⟩
  · exact (hc.asymm hc' hl.symm ht.symm hl' ht').elim

/-! ### The leftover loop under two orders -/

/-- Two states of the loop that differ in the order of the hash sets only. -/
structure Leftover.Same (s s' : Leftover) : Prop where
  remaining : s.remaining.Perm s'.remaining
  scheduled : s.placement.scheduled = s'.placement.scheduled

private lemma earliest_le_earliest {s s' : Placement} (hs : s.scheduled = s'.scheduled) (g : ℕ) :
    earliest h lv s g ≤ earliest h' lv s' g := by
  obtain ⟨hasap, hsome, hnone, -⟩ := earliest_spec h' lv s' g
  refine (earliest_spec h lv s g).2.2.2 _ hasap ?_
  intro p hp
  rw [hs]
  cases hsched : s'.scheduled p with
  | none => exact hnone p hp hsched
  | some level => exact hsome p hp level hsched

lemma earliest_same {s s' : Placement} (hs : s.scheduled = s'.scheduled) (g : ℕ) :
    earliest h lv s g = earliest h' lv s' g :=
  le_antisymm (earliest_le_earliest hs g) (earliest_le_earliest hs.symm g)

lemma Leftover.Same.perm_at {s s' : Leftover} (hs : Leftover.Same s s') (level : ℕ)
    (ty : String) :
    ((levelBuckets h a lv s.placement s.remaining).at level ty).Perm
      ((levelBuckets h' a lv s'.placement s'.remaining).at level ty) := by
  rw [at_levelBuckets, at_levelBuckets]
  have hallowed : ∀ g, Allowed h lv s.placement level g ↔ Allowed h' lv s'.placement level g := by
    intro g
    rw [Allowed, Allowed, earliest_same hs.scheduled]
  simp only [hallowed]
  exact ((h.perm _ _).trans (hs.remaining.trans (h'.perm _ _).symm)).filter _

lemma scheduled_foldl_place (ty : String) (level : ℕ) (gens : List ℕ) (s : Placement) (g : ℕ) :
    (gens.foldl (Placement.place ty level) s).scheduled g =
      if g ∈ gens then some level else s.scheduled g := by
  induction gens generalizing s with
  | nil => rfl
  | cons g' gens ih =>
    rw [List.foldl_cons, ih]
    by_cases hg : g = g'
    · subst hg
      simp [Placement.place]
    · simp [Placement.place, hg]

/-- An iteration places the same generators on the same level under both orders. -/
lemma Leftover.Same.step (hlv : lv.Increasing a) {s s' : Leftover} (hsame : Leftover.Same s s')
    (hs : s.Inv a lv) (hs' : s'.Inv a lv) (hne : s.remaining ≠ []) :
    ∃ t t', leftoverStep h a lv s = .ok t ∧ leftoverStep h' a lv s' = .ok t' ∧
      Leftover.Same t t' ∧ t.Inv a lv ∧ t'.Inv a lv ∧
      t.remaining.length < s.remaining.length := by
  have hne' : s'.remaining ≠ [] := fun hnil => hne (List.perm_nil.mp (hnil ▸ hsame.remaining))
  obtain ⟨best, t, hsel, hgens, hstep, ht, hlt⟩ := hs.step (h := h) hlv hne
  obtain ⟨best', t', hsel', hgens', hstep', ht', -⟩ := hs'.step (h := h') hlv hne'
  have hplace : t = s.place best := by
    rw [leftoverStep, hsel] at hstep
    exact (Except.ok.inj hstep).symm
  have hplace' : t' = s'.place best' := by
    rw [leftoverStep, hsel'] at hstep'
    exact (Except.ok.inj hstep').symm
  have hbest := mem_of_bestGroup hsel
  have hbest' := mem_of_bestGroup hsel'
  obtain ⟨hl, hty⟩ := bestGroup_same (fun level ty => (hsame.perm_at level ty).length_eq)
    hbest hgens hsel hbest' hgens' hsel'
  have hperm : best.gens.Perm best'.gens := by
    rw [Buckets.mem_groups hbest, Buckets.mem_groups hbest', ← hl, ← hty]
    exact hsame.perm_at _ _
  refine ⟨t, t', hstep, hstep', ⟨?_, ?_⟩, ht, ht', hlt⟩
  · rw [hplace, hplace', Leftover.place, Leftover.place]
    simp only [hperm.mem_iff]
    exact hsame.remaining.filter _
  · funext g
    rw [hplace, hplace', Leftover.place, Leftover.place, scheduled_foldl_place,
      scheduled_foldl_place, hsame.scheduled, hl]
    simp only [hperm.mem_iff]

lemma Leftover.Same.placeLeftover (hlv : lv.Increasing a) (fuel : ℕ) {s s' : Leftover}
    (hsame : Leftover.Same s s') (hs : s.Inv a lv) (hs' : s'.Inv a lv)
    (hfuel : s.remaining.length ≤ fuel) :
    ∃ t t', MegaZK.placeLeftover h a lv fuel s.remaining s.placement = .ok t ∧
      MegaZK.placeLeftover h' a lv fuel s'.remaining s'.placement = .ok t' ∧
      t.scheduled = t'.scheduled := by
  have hdone : s.remaining = [] → ∃ t t',
      MegaZK.placeLeftover h a lv fuel s.remaining s.placement = .ok t ∧
      MegaZK.placeLeftover h' a lv fuel s'.remaining s'.placement = .ok t' ∧
      t.scheduled = t'.scheduled := by
    intro hnil
    have hnil' : s'.remaining = [] := List.perm_nil.mp (hnil ▸ hsame.remaining.symm)
    refine ⟨s.placement, s'.placement, ?_, ?_, hsame.scheduled⟩
    · cases fuel <;> simp [MegaZK.placeLeftover, hnil]
    · cases fuel <;> simp [MegaZK.placeLeftover, hnil']
  induction fuel generalizing s s' with
  | zero => exact hdone (List.eq_nil_of_length_eq_zero (by omega))
  | succ fuel ih =>
    by_cases hnil : s.remaining = []
    · exact hdone hnil
    have hnil' : s'.remaining ≠ [] := fun h => hnil (List.perm_nil.mp (h ▸ hsame.remaining))
    obtain ⟨t, t', hstep, hstep', hsame', ht, ht', hlt⟩ :=
      @Leftover.Same.step h h' a lv hlv _ _ hsame hs hs' hnil
    rw [placeLeftover_succ fuel hnil hstep, placeLeftover_succ fuel hnil' hstep']
    refine ih hsame' ht ht' (by omega) ?_
    intro hnil
    have hnil' : t'.remaining = [] := List.perm_nil.mp (hnil ▸ hsame'.remaining.symm)
    refine ⟨t.placement, t'.placement, ?_, ?_, hsame'.scheduled⟩
    · cases fuel <;> simp [MegaZK.placeLeftover, hnil]
    · cases fuel <;> simp [MegaZK.placeLeftover, hnil']

lemma placeGenerators_same (hlv : lv.Increasing a) (mode : Scheduling) :
    ∃ s s' flag, placeGenerators h a lv mode = .ok (s, flag) ∧
      placeGenerators h' a lv mode = .ok (s', flag) ∧ s.scheduled = s'.scheduled := by
  cases mode with
  | asap => exact ⟨_, _, _, rfl, rfl, rfl⟩
  | alap => exact ⟨_, _, _, rfl, rfl, rfl⟩
  | custom =>
    simp only [placeGenerators, placeCustom]
    split_ifs with hfast
    · exact ⟨_, _, _, rfl, rfl, rfl⟩
    · have hstart : Leftover.Same (Leftover.start a lv) (Leftover.start a lv) := ⟨.refl _, rfl⟩
      obtain ⟨t, t', hrun, hrun', hsame⟩ := @Leftover.Same.placeLeftover h h' a lv hlv
        (Leftover.start a lv).remaining.length _ _ hstart (.start hlv) (.start hlv) (le_refl _)
      refine ⟨t, t', false, ?_, ?_, hsame⟩
      · exact congrArg (Except.map (·, false)) hrun
      · exact congrArg (Except.map (·, false)) hrun'

/-! ### Levels and witness under two orders -/

/-- The levels of the two orders, and the level at which each places a generator, are the same. -/
lemma schedule_same (h h' : HashOrder) (hn : 0 < a.n) (mode : Scheduling) :
    ∃ s s', WitnessService.schedule h a mode = .ok s ∧
      WitnessService.schedule h' a mode = .ok s' ∧ s.levels = s'.levels ∧
      ∀ g < a.n, ∃ level, s.PlacedAt a g level ∧ s'.PlacedAt a g level := by
  obtain ⟨lv, hlevels, -, hlv⟩ := a.levels_spec hn
  obtain ⟨s, s', flag, hplace, hplace', hsame⟩ :=
    @placeGenerators_same h h' a lv hlv mode
  obtain ⟨t, f, ht, hsound, hcomplete⟩ := placeGenerators_spec (h := h) hlv mode
  obtain ⟨t', f', ht', hsound', -⟩ := placeGenerators_spec (h := h') hlv mode
  obtain ⟨rfl, rfl⟩ := Prod.mk.inj (Except.ok.inj (hplace.symm.trans ht))
  obtain ⟨rfl, rfl⟩ := Prod.mk.inj (Except.ok.inj (hplace'.symm.trans ht'))
  refine ⟨⟨lv, s.layer, flag⟩, ⟨lv, s'.layer, flag⟩, ?_, ?_, rfl, ?_⟩
  · simp only [WitnessService.schedule, hlevels, hplace]
  · simp only [WitnessService.schedule, hlevels, hplace']
  · intro g hg
    obtain ⟨level, hlevel, -⟩ := hcomplete g hg
    exact ⟨level, hsound.placedAt hlevel flag, hsound'.placedAt (hsame ▸ hlevel) flag⟩

/-- Hash sets iterated from the last element. -/
def HashOrder.reversed : HashOrder where
  iter _ l := l.reverse
  perm _ l := l.reverse_perm

/-- The kernels of the generators of `copyArgs`. -/
def copyKernel (type : String) (params reads : ℕ → ℕ) : List ℕ :=
  if type = "ConstantGenerator" then [params 0] else [reads 0]

/-- The scattered value of a wire of `copyArgs` after a run on the inputs `x` and `y`. -/
def copyWire (h : HashOrder) (x y i j : ℕ) : Option ℕ :=
  match WitnessService.build h copyArgs .custom with
  | .error _ => none
  | .ok p => some (generateFullWitness copyArgs p
      (p.replay copyKernel .launch (WitnessPlan.uploadInputs (fun _ => 0) [x, y])) (fun _ => 0)
      (j * copyArgs.degree + i))

end MegaZK
