import MegaZK.Witgen.Levels

/-! # The placement of the generators

Every phase of the custom mode keeps the invariant `Ordered`: a placed generator lies between
its earliest and its latest level, above its placed predecessors, and above the latest level of
the predecessors that are still to be placed. -/

namespace MegaZK

variable {h : HashOrder} {a : BuildArgs} {lv : Levels}

/-! ### Batches and layers -/

lemma Batches.getD_push (m : Batches) (ty ty' : String) (g : ℕ) :
    (m.push ty g).getD ty' [] = if ty = ty' then m.getD ty [] ++ [g] else m.getD ty' [] := by
  rw [Batches.push, Std.TreeMap.getD_alter]
  simp only [Std.LawfulEqCmp.compare_eq_iff_eq, Option.getD_some,
    Std.TreeMap.getD_eq_getD_getElem?]

/-- A generator stands in a batch exactly when it is scheduled there, and only once. -/
structure Placement.Sound (a : BuildArgs) (s : Placement) : Prop where
  count : ∀ level ty g, ((s.layer level).getD ty []).count g =
    if s.scheduled g = some level ∧ (a.generator g).id = ty then 1 else 0
  lt : ∀ g level, s.scheduled g = some level → g < a.n

lemma Placement.sound_empty : Placement.empty.Sound a := by
  constructor
  · intro level ty g
    simp [Placement.empty]
  · intro g level hlevel
    cases hlevel

lemma Placement.Sound.place {s : Placement} (hs : s.Sound a) {g : ℕ} (hlt : g < a.n)
    (hg : s.scheduled g = none) (level : ℕ) :
    (s.place (a.generator g).id level g).Sound a := by
  refine ⟨?_, ?_⟩
  swap
  · intro g' level' hlevel
    by_cases hgg : g' = g
    · exact hgg ▸ hlt
    · refine hs.lt g' level' ?_
      simpa [Placement.place, hgg] using hlevel
  intro level' ty g'
  have hold := hs.count level' ty g'
  by_cases hlevel : level' = level
  · subst hlevel
    simp only [Placement.place, Function.update_self, Batches.getD_push]
    by_cases hty : (a.generator g).id = ty
    · subst hty
      by_cases hgg : g' = g
      · subst hgg
        simp_all
      · have hgg' : ¬ g = g' := fun e => hgg e.symm
        simp_all
    · by_cases hgg : g' = g
      · subst hgg
        simp_all
      · simp_all
  · by_cases hgg : g' = g
    · subst hgg
      simp_all [Placement.place, Ne.symm hlevel]
    · simp_all [Placement.place]

@[simp] lemma placeAt_nil (level : ℕ → ℕ) (s : Placement) : placeAt a level [] s = s := rfl

@[simp] lemma placeAt_cons (level : ℕ → ℕ) (g : ℕ) (gs : List ℕ) (s : Placement) :
    placeAt a level (g :: gs) s =
      placeAt a level gs (s.place (a.generator g).id (level g) g) := rfl

lemma scheduled_placeAt (level : ℕ → ℕ) (gs : List ℕ) (s : Placement) (g : ℕ) :
    (placeAt a level gs s).scheduled g = if g ∈ gs then some (level g) else s.scheduled g := by
  induction gs generalizing s with
  | nil => simp
  | cons g' gs ih =>
    rw [placeAt_cons, ih]
    by_cases hg : g = g'
    · subst hg; simp [Placement.place]
    · simp [Placement.place, hg]

lemma Placement.Sound.placeAt (level : ℕ → ℕ) {gs : List ℕ} (hgs : gs.Nodup) {s : Placement}
    (hs : s.Sound a) (hlt : ∀ g ∈ gs, g < a.n) (hfree : ∀ g ∈ gs, s.scheduled g = none) :
    (MegaZK.placeAt a level gs s).Sound a := by
  induction gs generalizing s with
  | nil => simpa using hs
  | cons g gs ih =>
    obtain ⟨hg, hgs⟩ := List.nodup_cons.mp hgs
    refine ih hgs (hs.place (hlt g (by simp)) (hfree g (by simp)) (level g))
      (fun g' hg' => hlt g' (by simp [hg'])) ?_
    intro g' hg'
    have hne : g' ≠ g := fun e => hg (e ▸ hg')
    simp [Placement.place, hne, hfree g' (by simp [hg'])]

/-- A batch placed under one type is placed generator by generator under their own ids. -/
lemma foldl_place_eq_placeAt {ty : String} (level : ℕ) {gs : List ℕ}
    (hty : ∀ g ∈ gs, (a.generator g).id = ty) (s : Placement) :
    gs.foldl (Placement.place ty level) s = placeAt a (fun _ => level) gs s := by
  induction gs generalizing s with
  | nil => rfl
  | cons g gs ih =>
    rw [List.foldl_cons, placeAt_cons, hty g (by simp)]
    exact ih (fun g' hg' => hty g' (by simp [hg'])) _

/-! ### Partial schedules -/

/-- The invariant of a partial schedule. -/
structure Ordered (a : BuildArgs) (lv : Levels) (scheduled : ℕ → Option ℕ) : Prop where
  range : ∀ g < a.n, ∀ level, scheduled g = some level →
    lv.asap g ≤ level ∧ level ≤ lv.alap g
  placed : ∀ g < a.n, ∀ p ∈ lv.pred g, ∀ level, scheduled g = some level →
    ∀ level', scheduled p = some level' → level' < level
  pending : ∀ g < a.n, ∀ p ∈ lv.pred g, ∀ level, scheduled g = some level →
    scheduled p = none → lv.alap p < level

/-- Placing a set of unplaced generators on one level keeps the invariant, if the level suits
each of them with respect to the schedule before the placement. -/
lemma Ordered.placeAt (hlv : lv.Increasing a) {s : Placement} (hs : Ordered a lv s.scheduled)
    {level : ℕ} {gs : List ℕ}
    (hfree : ∀ g ∈ gs, s.scheduled g = none)
    (hrange : ∀ g ∈ gs, lv.asap g ≤ level ∧ level ≤ lv.alap g)
    (hpred : ∀ g ∈ gs, ∀ p ∈ lv.pred g,
      (∃ level', s.scheduled p = some level' ∧ level' < level) ∨ lv.alap p < level) :
    Ordered a lv (MegaZK.placeAt a (fun _ => level) gs s).scheduled := by
  refine ⟨?_, ?_, ?_⟩
  · intro g hg l hl
    rw [scheduled_placeAt] at hl
    split_ifs at hl with hmem
    · obtain rfl := Option.some.inj hl
      exact hrange g hmem
    · exact hs.range g hg l hl
  · intro g hg p hp l hl l' hl'
    rw [scheduled_placeAt] at hl hl'
    split_ifs at hl with hmem <;> split_ifs at hl' with hmem'
    · -- a predecessor in the same batch would have to end before its own level
      obtain rfl := Option.some.inj hl
      rcases hpred g hmem p hp with ⟨l'', hl'', -⟩ | halap
      · rw [hfree p hmem'] at hl''
        cases hl''
      · have := (hrange p hmem').2
        omega
    · obtain rfl := Option.some.inj hl
      rcases hpred g hmem p hp with ⟨l'', hl'', hlt⟩ | halap
      · rw [hl''] at hl'
        obtain rfl := Option.some.inj hl'
        exact hlt
      · have := (hs.range p (hlv.pred_lt g hg p hp) l' hl').2
        omega
    · obtain rfl := Option.some.inj hl'
      have := hs.pending g hg p hp l hl (hfree p hmem')
      have := (hrange p hmem').2
      omega
    · exact hs.placed g hg p hp l hl l' hl'
  · intro g hg p hp l hl hnone
    rw [scheduled_placeAt] at hl hnone
    split_ifs at hnone with hmem'
    split_ifs at hl with hmem
    · obtain rfl := Option.some.inj hl
      rcases hpred g hmem p hp with ⟨l'', hl'', -⟩ | halap
      · rw [hnone] at hl''
        cases hl''
      · exact halap
    · exact hs.pending g hg p hp l hl hnone

/-- What a finished schedule gives for every generator. -/
def Complete (a : BuildArgs) (lv : Levels) (scheduled : ℕ → Option ℕ) : Prop :=
  ∀ g < a.n, ∃ level, scheduled g = some level ∧
    lv.asap g ≤ level ∧ level ≤ lv.alap g ∧
    ∀ p ∈ lv.pred g, ∃ level' < level, scheduled p = some level'

lemma Ordered.complete (hlv : lv.Increasing a) {scheduled : ℕ → Option ℕ}
    (hs : Ordered a lv scheduled) (hall : ∀ g < a.n, scheduled g ≠ none) :
    Complete a lv scheduled := by
  intro g hg
  obtain ⟨level, hlevel⟩ := Option.ne_none_iff_exists'.mp (hall g hg)
  obtain ⟨hasap, halap⟩ := hs.range g hg level hlevel
  refine ⟨level, hlevel, hasap, halap, ?_⟩
  intro p hp
  obtain ⟨level', hlevel'⟩ :=
    Option.ne_none_iff_exists'.mp (hall p (hlv.pred_lt g hg p hp))
  exact ⟨level', hs.placed g hg p hp level hlevel level' hlevel', hlevel'⟩

/-- Placing every generator at a level function that increases along the dependencies. -/
lemma complete_of_level (hlv : lv.Increasing a) (level : ℕ → ℕ) {scheduled : ℕ → Option ℕ}
    (hs : ∀ g < a.n, scheduled g = some (level g))
    (hrange : ∀ g < a.n, lv.asap g ≤ level g ∧ level g ≤ lv.alap g)
    (hlt : ∀ g < a.n, ∀ p ∈ lv.pred g, level p < level g) : Complete a lv scheduled := by
  intro g hg
  obtain ⟨hasap, halap⟩ := hrange g hg
  refine ⟨level g, hs g hg, hasap, halap, ?_⟩
  intro p hp
  exact ⟨level p, hlt g hg p hp, hs p (hlv.pred_lt g hg p hp)⟩

/-! ### Generators without slack -/

lemma scheduled_placeCritical (g : ℕ) :
    (placeCritical a lv).scheduled g =
      if g < a.n ∧ lv.alap g - lv.asap g = 0 then some (lv.asap g) else none := by
  rw [placeCritical, scheduled_placeAt]
  simp [Placement.empty]

lemma sound_placeCritical : (placeCritical a lv).Sound a :=
  Placement.sound_empty.placeAt _ (List.nodup_range.filter _)
    (fun _ hg => List.mem_range.mp (List.mem_filter.mp hg).1) (fun _ _ => rfl)

lemma ordered_placeCritical (hlv : lv.Increasing a) :
    Ordered a lv (placeCritical a lv).scheduled := by
  have hcrit : ∀ g < a.n, ∀ level, (placeCritical a lv).scheduled g = some level →
      level = lv.asap g ∧ lv.asap g = lv.alap g := by
    intro g hg level hlevel
    rw [scheduled_placeCritical] at hlevel
    split_ifs at hlevel with hslack
    have := hlv.asap_le_alap g hg
    exact ⟨(Option.some.inj hlevel).symm, by omega⟩
  refine ⟨?_, ?_, ?_⟩
  · intro g hg level hlevel
    obtain ⟨h₁, h₂⟩ := hcrit g hg level hlevel
    omega
  · intro g hg p hp level hlevel level' hlevel'
    obtain ⟨h₁, -⟩ := hcrit g hg level hlevel
    obtain ⟨h₂, -⟩ := hcrit p (hlv.pred_lt g hg p hp) level' hlevel'
    have := hlv.asap_lt g hg p hp
    omega
  · intro g hg p hp level hlevel _
    obtain ⟨h₁, h₂⟩ := hcrit g hg level hlevel
    have := hlv.alap_lt g hg p hp
    omega

/-! ### The level-by-level fill -/

/-- The pools hold exactly the generators that are not placed, each under its own id. -/
structure Fill.Inv (a : BuildArgs) (lv : Levels) (s : Fill) : Prop where
  sound : s.placement.Sound a
  ordered : Ordered a lv s.placement.scheduled
  nodup : ∀ ty, (s.remainingByType.getD ty []).Nodup
  mem : ∀ ty g, g ∈ s.remainingByType.getD ty [] ↔
    g < a.n ∧ (a.generator g).id = ty ∧ s.placement.scheduled g = none

lemma isCandidate_iff {s : Placement} {level g : ℕ} :
    isCandidate lv s level g = true ↔
      (lv.asap g ≤ level ∧ level ≤ lv.alap g) ∧
        ∀ p ∈ lv.pred g,
          (∃ level', s.scheduled p = some level' ∧ level' < level) ∨ lv.alap p < level := by
  simp only [isCandidate, Bool.and_eq_true, decide_eq_true_eq, List.all_eq_true, Bool.or_eq_true]
  refine and_congr_right fun _ => forall₂_congr fun p _ => or_congr ?_ Iff.rfl
  cases hp : s.scheduled p with
  | none => simp
  | some level' => simp

lemma Fill.Inv.fillType (hlv : lv.Increasing a) (level : ℕ) {s : Fill} (hs : Fill.Inv a lv s)
    (ty : String) : Fill.Inv a lv (fillType lv level s ty) := by
  unfold MegaZK.fillType
  cases hpool : s.remainingByType[ty]? with
  | none => simpa using hs
  | some pool =>
    have hget : s.remainingByType.getD ty [] = pool := by
      rw [Std.TreeMap.getD_eq_getD_getElem?, hpool, Option.getD_some]
    have hmem := hs.mem ty
    have hnodup := hs.nodup ty
    rw [hget] at hmem hnodup
    by_cases hnil : pool = []
    · simpa [hnil] using hs
    simp only [hnil, ↓reduceIte]
    have hcand : ∀ g ∈ pool.filter (isCandidate lv s.placement level),
        g ∈ pool ∧ isCandidate lv s.placement level g = true := by
      intro g hg
      exact List.mem_filter.mp hg
    rw [foldl_place_eq_placeAt (a := a) level (fun g hg => ((hmem g).mp (hcand g hg).1).2.1)]
    refine ⟨?_, ?_, ?_, ?_⟩
    · exact hs.sound.placeAt _ (hnodup.filter _)
        (fun g hg => ((hmem g).mp (hcand g hg).1).1)
        (fun g hg => ((hmem g).mp (hcand g hg).1).2.2)
    · exact hs.ordered.placeAt hlv
        (fun g hg => ((hmem g).mp (hcand g hg).1).2.2)
        (fun g hg => (isCandidate_iff.mp (hcand g hg).2).1)
        (fun g hg => (isCandidate_iff.mp (hcand g hg).2).2)
    · intro ty'
      rw [Std.TreeMap.getD_insert]
      split_ifs
      · exact hnodup.filter _
      · exact hs.nodup ty'
    · intro ty' g
      rw [Std.TreeMap.getD_insert, scheduled_placeAt]
      simp only [Std.LawfulEqCmp.compare_eq_iff_eq]
      by_cases hty : ty = ty'
      · subst hty
        simp only [↓reduceIte, List.mem_filter, hmem]
        by_cases hc : isCandidate lv s.placement level g = true
        · simp only [hc, Bool.not_true, Bool.false_eq_true, and_false, and_true, false_iff]
          rintro ⟨hg, hid, hnone⟩
          split_ifs at hnone with hin
          exact hin ⟨hg, hid, hnone⟩
        · simp [hc]
      · rw [if_neg hty, hs.mem ty' g]
        refine and_congr_right fun hg => and_congr_right fun hid => ?_
        rw [if_neg]
        intro hfilter
        exact hty (((hmem g).mp (hcand g hfilter).1).2.1 ▸ hid)

lemma Fill.Inv.fillLevel (hlv : lv.Increasing a) {s : Fill} (hs : Fill.Inv a lv s) (level : ℕ) :
    Fill.Inv a lv (fillLevel lv s level) := by
  unfold MegaZK.fillLevel
  generalize (s.placement.layer level).keys = types
  induction types generalizing s with
  | nil => exact hs
  | cons ty types ih => exact ih (hs.fillType hlv level ty)

lemma Fill.Inv.foldl_fillLevel (hlv : lv.Increasing a) (levels : List ℕ) {s : Fill}
    (hs : Fill.Inv a lv s) : Fill.Inv a lv (levels.foldl (MegaZK.fillLevel lv) s) := by
  induction levels generalizing s with
  | nil => exact hs
  | cons level levels ih => exact ih (hs.fillLevel hlv level)

/-- Grouping generators by id. -/
lemma getD_foldl_push (gs : List ℕ) (m : Batches) (ty : String) :
    (gs.foldl (fun m g => m.push (a.generator g).id g) m).getD ty [] =
      m.getD ty [] ++ gs.filter fun g => (a.generator g).id = ty := by
  induction gs generalizing m with
  | nil => simp
  | cons g gs ih =>
    rw [List.foldl_cons, ih, Batches.getD_push]
    by_cases hty : (a.generator g).id = ty
    · subst hty; simp
    · simp [hty]

lemma mem_unscheduled {s : Placement} {g : ℕ} :
    g ∈ unscheduled a s ↔ g < a.n ∧ s.scheduled g = none := by
  simp [unscheduled]

lemma fill_inv (hlv : lv.Increasing a) {s : Placement} (hsound : s.Sound a)
    (hordered : Ordered a lv s.scheduled) : Fill.Inv a lv (fill a lv s) := by
  refine Fill.Inv.foldl_fillLevel hlv _ ⟨hsound, hordered, ?_, ?_⟩
  · intro ty
    rw [getD_foldl_push]
    rw [Std.TreeMap.getD_emptyc, List.nil_append]
    exact List.Nodup.filter _ (List.nodup_range.filter _)
  · intro ty g
    rw [getD_foldl_push]
    simp [mem_unscheduled]
    tauto

/-- The generators left over by the fill, in the order of the pools. -/
lemma Fill.Inv.remaining {s : Fill} (hs : Fill.Inv a lv s) :
    (s.remainingByType.toList.map Prod.snd).flatten.Nodup ∧
      ∀ g, g ∈ (s.remainingByType.toList.map Prod.snd).flatten ↔
        g < a.n ∧ s.placement.scheduled g = none := by
  have hget : ∀ ty pool, (ty, pool) ∈ s.remainingByType.toList →
      s.remainingByType.getD ty [] = pool := by
    intro ty pool hpool
    rw [Std.TreeMap.getD_eq_getD_getElem?,
      Std.TreeMap.mem_toList_iff_getElem?_eq_some.mp hpool, Option.getD_some]
  refine ⟨?_, ?_⟩
  · rw [List.nodup_flatten]
    refine ⟨?_, ?_⟩
    · intro pool hpool
      obtain ⟨⟨ty, pool⟩, hmem, rfl⟩ := List.mem_map.mp hpool
      rw [← hget ty pool hmem]
      exact hs.nodup ty
    · rw [List.pairwise_map]
      -- pools of different types are disjoint, since a generator has one id
      refine List.Pairwise.imp_of_mem ?_ s.remainingByType.distinct_keys_toList
      rintro ⟨ty, pool⟩ ⟨ty', pool'⟩ hmem hmem' hne g hg hg'
      rw [← hget ty pool hmem, hs.mem] at hg
      rw [← hget ty' pool' hmem', hs.mem] at hg'
      exact hne (Std.LawfulEqCmp.compare_eq_iff_eq.mpr (hg.2.1.symm.trans hg'.2.1))
  · intro g
    simp only [List.mem_flatten, List.mem_map, Prod.exists, exists_eq_right]
    constructor
    · rintro ⟨pool, ⟨ty, hmem⟩, hg⟩
      rw [← hget ty pool hmem, hs.mem] at hg
      exact ⟨hg.1, hg.2.2⟩
    · rintro ⟨hg, hnone⟩
      have hmem := (hs.mem (a.generator g).id g).mpr ⟨hg, rfl, hnone⟩
      rw [Std.TreeMap.getD_eq_getD_getElem?] at hmem
      cases hpool : s.remainingByType[(a.generator g).id]? with
      | none => simp [hpool] at hmem
      | some pool =>
        rw [hpool, Option.getD_some] at hmem
        exact ⟨pool, ⟨_, Std.TreeMap.mem_toList_iff_getElem?_eq_some.mpr hpool⟩, hmem⟩

end MegaZK
