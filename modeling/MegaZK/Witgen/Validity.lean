import MegaZK.Witgen.Leftover

/-! # Validity of the schedule

In each of the three modes every generator ends up in exactly one layer, between its earliest and
its latest level and above its predecessors. -/

namespace MegaZK

variable {h : HashOrder} {a : BuildArgs} {lv : Levels}

/-! ### The three modes -/

lemma placeCustom_spec (hlv : lv.Increasing a) :
    ∃ s flag, placeCustom h a lv (placeCritical a lv) = .ok (s, flag) ∧ s.Sound a ∧
      Complete a lv s.scheduled := by
  unfold placeCustom
  by_cases hfast : unscheduled a (placeCritical a lv) = [] ∨ lv.maxLevel > chainFastMinLevels
  · rw [if_pos hfast]
    refine ⟨_, _, rfl, ?_, ?_⟩
    · exact sound_placeCritical.placeAt _ (List.nodup_range.filter _)
        (fun g hg => (mem_unscheduled.mp hg).1) (fun g hg => (mem_unscheduled.mp hg).2)
    · refine complete_of_level hlv lv.asap ?_
        (fun g hg => ⟨le_refl _, hlv.asap_le_alap g hg⟩) hlv.asap_lt
      intro g hg
      rw [scheduled_placeAt]
      by_cases hmem : g ∈ unscheduled a (placeCritical a lv)
      · rw [if_pos hmem]
      · rw [if_neg hmem]
        rw [mem_unscheduled, not_and] at hmem
        have hne := hmem hg
        rw [scheduled_placeCritical] at hne ⊢
        split_ifs at hne ⊢ with hslack
        · rfl
        · exact absurd rfl hne
  · rw [if_neg hfast]
    obtain ⟨s, hs, hnil, hrun⟩ := (Leftover.Reached.start (h := h)).placeLeftover hlv _ (le_refl _)
    have hinv := hs.inv hlv
    refine ⟨s.placement, false, ?_, hinv.sound, hinv.ordered.complete hlv ?_⟩
    · change (placeLeftover h a lv (Leftover.start a lv).remaining.length
        (Leftover.start a lv).remaining (Leftover.start a lv).placement).map (·, false) = _
      rw [hrun]
      rfl
    · intro g hg hnone
      have hmem := (hinv.mem g).mpr ⟨hg, hnone⟩
      rw [hnil] at hmem
      cases hmem

lemma placeGenerators_spec (hlv : lv.Increasing a) (mode : Scheduling) :
    ∃ s flag, placeGenerators h a lv mode = .ok (s, flag) ∧ s.Sound a ∧
      Complete a lv s.scheduled := by
  cases mode with
  | asap =>
    refine ⟨_, _, rfl, ?_, ?_⟩
    · exact Placement.sound_empty.placeAt _ List.nodup_range
        (fun _ hg => List.mem_range.mp hg) (fun _ _ => rfl)
    · refine complete_of_level hlv lv.asap ?_
        (fun g hg => ⟨le_refl _, hlv.asap_le_alap g hg⟩) hlv.asap_lt
      intro g hg
      simp [scheduled_placeAt, hg]
  | alap =>
    refine ⟨_, _, rfl, ?_, ?_⟩
    · exact Placement.sound_empty.placeAt _ List.nodup_range
        (fun _ hg => List.mem_range.mp hg) (fun _ _ => rfl)
    · refine complete_of_level hlv lv.alap ?_
        (fun g hg => ⟨hlv.asap_le_alap g hg, le_refl _⟩) hlv.alap_lt
      intro g hg
      simp [scheduled_placeAt, hg]
  | custom => exact placeCustom_spec hlv

/-! ### The schedule -/

/-- Generator `g` stands in layer `level`, in the batch of its own id, and nowhere else. -/
def Schedule.PlacedAt (a : BuildArgs) (s : Schedule) (g level : ℕ) : Prop :=
  ∀ l ty, ((s.layer l).getD ty []).count g =
    if l = level ∧ ty = (a.generator g).id then 1 else 0

lemma Batches.mem_toList {m : Batches} {b : String × List ℕ} (hb : b ∈ m.toList) :
    m.getD b.1 [] = b.2 := by
  rw [Std.TreeMap.getD_eq_getD_getElem?,
    (Std.TreeMap.mem_toList_iff_getElem?_eq_some (k := b.1) (v := b.2)).mp hb, Option.getD_some]

lemma Batches.exists_mem_toList {m : Batches} {ty : String} (h : m.getD ty [] ≠ []) :
    (ty, m.getD ty []) ∈ m.toList := by
  rw [Std.TreeMap.mem_toList_iff_getElem?_eq_some]
  rw [Std.TreeMap.getD_eq_getD_getElem?] at h ⊢
  cases hget : m[ty]? with
  | none => simp [hget] at h
  | some l => simp

lemma Schedule.PlacedAt.exists_mem_toList {s : Schedule} {g level : ℕ}
    (hplaced : s.PlacedAt a g level) : ∃ b ∈ (s.layer level).toList, g ∈ b.2 := by
  have hone := hplaced level (a.generator g).id
  rw [if_pos ⟨rfl, rfl⟩] at hone
  have hmem : g ∈ (s.layer level).getD (a.generator g).id [] := by
    rw [← List.count_pos_iff]
    omega
  exact ⟨_, Batches.exists_mem_toList (List.ne_nil_of_mem hmem), hmem⟩

/-- The schedule is valid at `g`: it is placed once, between its earliest and its latest level,
and all its predecessors are placed in strictly smaller layers. -/
def Schedule.ValidAt (a : BuildArgs) (s : Schedule) (g : ℕ) : Prop :=
  ∃ level, s.PlacedAt a g level ∧ level ≤ s.levels.maxLevel ∧
    s.levels.asap g ≤ level ∧ level ≤ s.levels.alap g ∧
    ∀ p ∈ s.levels.pred g, ∃ level' < level, s.PlacedAt a p level'

lemma Placement.Sound.placedAt {s : Placement} (hs : s.Sound a) {g level : ℕ}
    (hg : s.scheduled g = some level) (flag : Bool) :
    Schedule.PlacedAt a ⟨lv, s.layer, flag⟩ g level := by
  intro l ty
  rw [hs.count l ty g, hg]
  simp [eq_comm]

lemma BuildArgs.n_pos_of_schedule {mode : Scheduling} {s : Schedule}
    (hs : WitnessService.schedule h a mode = .ok s) : 0 < a.n := by
  unfold WitnessService.schedule at hs
  cases hlv : a.levels h with
  | error e => simp [hlv] at hs
  | ok lv => exact BuildArgs.n_pos_of_levels hlv

/-- In every mode the schedule of a non-empty set of generators succeeds, and is valid with
respect to its dependency sets, whether or not the generators become ready. -/
lemma schedule_spec (h : HashOrder) (hn : 0 < a.n) (mode : Scheduling) :
    ∃ s, WitnessService.schedule h a mode = .ok s ∧ (∀ h', a.levels h' = .ok s.levels) ∧
      s.levels.Computed a ∧ s.levels.Increasing a ∧ (∀ g < a.n, s.ValidAt a g) ∧
      ∀ l ty, ∀ g ∈ (s.layer l).getD ty [], g < a.n := by
  obtain ⟨lv, hlevels, hcomputed, hlv⟩ := a.levels_spec hn
  obtain ⟨s, flag, hplace, hsound, hcomplete⟩ := placeGenerators_spec (h := h) hlv mode
  refine ⟨⟨lv, s.layer, flag⟩, ?_, hlevels, hcomputed, hlv, ?_, ?_⟩
  · simp only [WitnessService.schedule, hlevels h, hplace]
  · intro g hg
    obtain ⟨level, hlevel, hasap, halap, hpred⟩ := hcomplete g hg
    refine ⟨level, hsound.placedAt hlevel flag, le_trans halap (hlv.alap_le g hg), hasap,
      halap, ?_⟩
    intro p hp
    obtain ⟨level', hlt, hlevel'⟩ := hpred p hp
    exact ⟨level', hlt, hsound.placedAt hlevel' flag⟩
  · intro l ty g hg
    have hcount := hsound.count l ty g
    rw [← List.count_pos_iff] at hg
    simp only at hg
    split_ifs at hcount with hsched
    · exact hsound.lt g l hsched.1
    · omega

/-- When all generators become ready, the levels of the schedule are valid too. -/
lemma schedule_ok (h : HashOrder) (hready : a.AllReady) (hn : 0 < a.n) (mode : Scheduling) :
    ∃ s, WitnessService.schedule h a mode = .ok s ∧ s.levels.Valid a ∧
      (∀ g < a.n, s.ValidAt a g) ∧
      ∀ l ty, ∀ g ∈ (s.layer l).getD ty [], g < a.n := by
  obtain ⟨s, hs, hlevels, -, -, hvalid, hlt⟩ := schedule_spec h hn mode
  obtain ⟨lv, hlv, hvalidLevels⟩ := a.levels_ok h hready hn
  rw [hlevels h] at hlv
  exact ⟨s, hs, Except.ok.inj hlv ▸ hvalidLevels, hvalid, hlt⟩

/-- Every generator of a set in which all become ready is placed in exactly one layer, in the
batch of its id, between its levels and above its predecessors. -/
theorem WitnessService.schedule_validAt (h : HashOrder) (a : BuildArgs) (hready : a.AllReady)
    (mode : Scheduling) (g : ℕ) (hg : g < a.n) :
    ∃ s, WitnessService.schedule h a mode = .ok s ∧ s.ValidAt a g := by
  obtain ⟨s, hs, -, hvalid, -⟩ := schedule_ok h hready (Nat.zero_lt_of_lt hg) mode
  exact ⟨s, hs, hvalid g hg⟩

/-- Two constants, a sum of the first with an input, and a copy of the sum. -/
def sumArgs : BuildArgs where
  inputTargets := [.virtualTarget 0]
  generators :=
    [⟨"ConstantGenerator", [], [.wire 0 0], [7]⟩,
      ⟨"ConstantGenerator", [], [.wire 1 0], [8]⟩,
      ⟨"ArithmeticBaseGenerator", [.wire 0 0, .virtualTarget 0], [.wire 0 1], []⟩,
      ⟨"CopyGenerator", [.wire 0 1, .wire 1 0], [.wire 1 1], []⟩]
  representativeMap := [0, 1, 2, 3, 4]
  numWires := 2
  degree := 2
  wires_le := by decide
  rep_lt := by decide
  inputs_lt := by decide
  watch_lt := by decide
  outputs_lt := by decide

lemma sumArgs_allReady : sumArgs.AllReady := by
  have hconst : ∀ i, sumArgs.watchReps i = [] → sumArgs.Ready i := fun i hi =>
    .intro i (fun _ => 0) (by simp [hi]) (by simp [hi])
  have hsum : sumArgs.Ready 2 := .intro 2 (fun _ => 0) (by decide)
    (fun _ _ _ => hconst 0 (by decide))
  intro i hi
  have hi' : i < 4 := hi
  interval_cases i
  · exact hconst 0 (by decide)
  · exact hconst 1 (by decide)
  · exact hsum
  · refine .intro 3 (fun r => if r = 1 then 2 else 1) (by decide) ?_
    intro r _ _
    by_cases hr : r = 1
    · simpa [hr] using hsum
    · simpa [hr] using hconst 1 (by decide)

theorem WitnessService.schedule_validAt_copy :
    sumArgs.AllReady ∧ 3 < sumArgs.n ∧
      ∃ s, WitnessService.schedule .insertion sumArgs .custom = .ok s ∧
        s.ValidAt sumArgs 3 :=
  ⟨sumArgs_allReady, by decide,
    WitnessService.schedule_validAt .insertion sumArgs sumArgs_allReady .custom 3 (by decide)⟩

end MegaZK
