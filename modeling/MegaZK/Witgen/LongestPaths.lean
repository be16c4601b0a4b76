import MegaZK.Lib.LongestPath
import MegaZK.Witgen.Levels

/-! # Levels as longest paths

The two level passes of `build` for any dependency sets without a cycle: the earliest level of a
generator is the length of the longest chain of dependencies that ends at it, and the latest one
lies as far below the last level as the longest chain that leaves it. -/

namespace MegaZK

open LongestPath

variable {a : BuildArgs}

/-! ### The passes on given dependency sets -/

/-- Dependency sets without a cycle. -/
structure AcyclicPreds (a : BuildArgs) where
  pred : ℕ → List ℕ
  nodup : ∀ i, (pred i).Nodup
  lt : ∀ i, ∀ p ∈ pred i, i < a.n ∧ p < a.n
  acyclic : ∀ i, ¬ Relation.TransGen (fun p i => p ∈ pred i) i i

/-- The edges from a generator to those that depend on it. -/
def AcyclicPreds.Edge (G : AcyclicPreds a) (p i : ℕ) : Prop := p ∈ G.pred i

/-- A level pass whose relaxation may fail. -/
def checkedLevelPass (n : ℕ) (next : ℕ → List ℕ) (relax : ℕ → ℕ → Option ℕ) (deg init : ℕ → ℕ) :
    Except String (ℕ → ℕ) :=
  match Kahn.runChecked next relax n (Kahn.start n deg init) with
  | none => .error "attempt to subtract with overflow"
  | some s =>
    if s.remaining = 0 then .ok s.level
    else .error s!"{s.remaining} generators weren't run"

/-- `alap[p].min(alap[u] - 1)` with a check of the subtraction. -/
def checkedMin (l lu : ℕ) : Option ℕ := if lu = 0 then none else some (min l (lu - 1))

namespace BuildArgs

/-- The part of `build` from the dependency sets to the levels, with a pass for the latest levels
as an argument. -/
def levelsBy (h : HashOrder) (a : BuildArgs) (pred : ℕ → List ℕ)
    (alapPass : ℕ → Except String (ℕ → ℕ)) : Except String Levels :=
  let succ := a.succOf pred
  match levelPass a.n (fun u => h.iter (.succ u) (succ u)) (fun l lu => max l (lu + 1))
      (fun i => (pred i).length) (fun _ => 0) with
  | .error e => .error e
  | .ok asap =>
    match ((List.range a.n).map asap).max? with
    | none => .error "called `Option::unwrap()` on a `None` value"
    | some maxLevel =>
      match alapPass maxLevel with
      | .error e => .error e
      | .ok alap => .ok { pred, succ, asap, alap, maxLevel }

/-- The levels of given dependency sets. -/
def levelsOf (h : HashOrder) (a : BuildArgs) (pred : ℕ → List ℕ) : Except String Levels :=
  a.levelsBy h pred fun maxLevel =>
    levelPass a.n (fun u => h.iter (.pred u) (pred u)) (fun l lu => min l (lu - 1))
      (fun i => (a.succOf pred i).length) (fun _ => maxLevel)

/-- The levels with every subtraction `alap[u] - 1` checked. -/
def checkedLevelsOf (h : HashOrder) (a : BuildArgs) (pred : ℕ → List ℕ) : Except String Levels :=
  a.levelsBy h pred fun maxLevel =>
    checkedLevelPass a.n (fun u => h.iter (.pred u) (pred u)) checkedMin
      (fun i => (a.succOf pred i).length) (fun _ => maxLevel)

/-- `build` computes the levels of the dependency sets that its search finds. -/
lemma levels_eq_levelsOf (h : HashOrder) (a : BuildArgs) {s : Bfs} (hrun : Bfs.run a = some s) :
    a.levels h = a.levelsOf h (a.predOf s.targetProducer) := by
  rw [levels, hrun]
  rfl

end BuildArgs

/-- What the levels are. -/
structure Levels.LongestPaths (G : AcyclicPreds a) (lv : Levels) : Prop where
  asap : ∀ v < a.n, IsGreatest (lengthsTo G.Edge v) (lv.asap v)
  alap : ∀ u < a.n, ∃ k, IsGreatest (lengthsFrom G.Edge u) k ∧ lv.alap u + k = lv.maxLevel
  asap_le_alap : ∀ g < a.n, lv.asap g ≤ lv.alap g
  alap_le_maxLevel : ∀ g < a.n, lv.alap g ≤ lv.maxLevel
  alap_lt : ∀ g, ∀ p ∈ G.pred g, lv.alap p < lv.alap g

/-! ### The equations of the levels -/

lemma AcyclicPreds.exists_predGraph (G : AcyclicPreds a) : ∃ rank, PredGraph a G.pred rank := by
  obtain ⟨rank, hrank⟩ := exists_rank (s := Finset.range a.n)
    (fun p i hp => Finset.mem_range.mpr (G.lt i p hp).2) G.acyclic
  exact ⟨rank, G.nodup, G.lt, fun i p hp => hrank p i hp⟩

lemma foldl_min_eq (f : ℕ → ℕ) (l : List ℕ) (b : ℕ) :
    l.foldl (fun x u => min x (f u)) b = b ∨ ∃ u ∈ l, l.foldl (fun x u => min x (f u)) b = f u := by
  induction l generalizing b with
  | nil => exact .inl rfl
  | cons v l ih =>
    rcases ih (min b (f v)) with h | ⟨u, hu, h⟩
    · rcases min_choice b (f v) with hb | hv
      · exact .inl (h.trans hb)
      · exact .inr ⟨v, by simp, h.trans hv⟩
    · exact .inr ⟨u, by simp [hu], h⟩

namespace Levels.Computed

variable {lv : Levels} {rank : ℕ → ℕ} {G : AcyclicPreds a}

/-- A generator below the last level has one that waits for it on the level just above. -/
lemma exists_alap_succ (hlv : lv.Computed a) (hP : PredGraph a lv.pred rank) {p : ℕ}
    (hp : lv.alap p < lv.maxLevel) : ∃ u, p ∈ lv.pred u ∧ lv.alap p + 1 = lv.alap u := by
  rcases foldl_min_eq (fun u => lv.alap u - 1) (lv.succ p) lv.maxLevel with h | ⟨u, hu, h⟩
  · rw [← hlv.alap p] at h
    omega
  · rw [← hlv.alap p] at h
    rw [hlv.succ, BuildArgs.mem_succOf] at hu
    have hlt := (hlv.increasing hP).alap_lt u hu.1 p hu.2
    exact ⟨u, hu.2, by omega⟩

lemma longestPaths (hlv : lv.Computed a) (hpred : lv.pred = G.pred)
    (hP : PredGraph a lv.pred rank) : lv.LongestPaths G := by
  have hinc := hlv.increasing hP
  have hedge : ∀ p i, G.Edge p i ↔ p ∈ lv.pred i := by
    intro p i
    rw [hpred]
    rfl
  have halap : ∀ g, ∀ p ∈ lv.pred g, lv.alap p < lv.alap g :=
    fun g p hp => hinc.alap_lt g (hP.lt g p hp).1 p hp
  constructor
  · intro v _
    refine isGreatest_lengthsTo ?_ ?_ v
    · intro p i hp
      exact hlv.asap_lt ((hedge p i).mp hp)
    · intro i hi
      obtain ⟨p, hp, heq⟩ := hlv.exists_asap_pred hi
      exact ⟨p, (hedge p i).mpr hp, heq⟩
  · intro u _
    have hle := hlv.alap_le_maxLevel u
    -- the distances to the last level are the levels of the graph turned around
    have hlevel : IsGreatest (lengthsTo (Function.swap G.Edge) u) (lv.maxLevel - lv.alap u) := by
      let depth : ℕ → ℕ := fun u => lv.maxLevel - lv.alap u
      have hdepth : ∀ u, depth u + lv.alap u = lv.maxLevel := by
        intro u
        exact Nat.sub_add_cancel (hlv.alap_le_maxLevel u)
      have hstep : ∀ i p, Function.swap G.Edge i p → depth i < depth p := by
        intro i p hp
        have hlt := halap i p ((hedge p i).mp hp)
        have hi := hdepth i
        have hp := hdepth p
        omega
      have htight : ∀ p, 0 < depth p → ∃ i, Function.swap G.Edge i p ∧ depth i + 1 = depth p := by
        intro p hpos
        have hp := hdepth p
        obtain ⟨i, hpi, heq⟩ := hlv.exists_alap_succ hP (p := p) (by omega)
        have hi := hdepth i
        exact ⟨i, (hedge p i).mpr hpi, by omega⟩
      exact isGreatest_lengthsTo hstep htight u
    refine ⟨lv.maxLevel - lv.alap u, ?_, by omega⟩
    rwa [← lengthsTo_swap]
  · exact hinc.asap_le_alap
  · exact hinc.alap_le
  · intro g p hp
    exact halap g p ((hedge p g).mp hp)

end Levels.Computed

/-! ### No subtraction underflows -/

lemma levelPass_ok {n : ℕ} {next : ℕ → List ℕ} {relax : ℕ → ℕ → ℕ} {deg init level : ℕ → ℕ}
    (h : levelPass n next relax deg init = .ok level) :
    ∃ s, Kahn.run next relax n (Kahn.start n deg init) = some s ∧ s.remaining = 0 ∧
      s.level = level := by
  rw [levelPass] at h
  cases hrun : Kahn.run next relax n (Kahn.start n deg init) with
  | none =>
    rw [hrun] at h
    cases h
  | some s =>
    simp only [hrun] at h
    split_ifs at h with hrem
    exact ⟨s, rfl, hrem, Except.ok.inj h⟩

/-- When the latest levels increase along the dependencies, the checked pass gives them too. -/
lemma PredGraph.checked_alap_pass {pred : ℕ → List ℕ} {rank : ℕ → ℕ} (h : HashOrder)
    (hP : PredGraph a pred rank) {maxLevel : ℕ} {alap : ℕ → ℕ}
    (hpass : levelPass a.n (fun u => h.iter (.pred u) (pred u)) (fun l lu => min l (lu - 1))
      (fun i => (a.succOf pred i).length) (fun _ => maxLevel) = .ok alap)
    (halap : ∀ i, ∀ p ∈ pred i, alap p < alap i) :
    checkedLevelPass a.n (fun u => h.iter (.pred u) (pred u)) checkedMin
      (fun i => (a.succOf pred i).length) (fun _ => maxLevel) = .ok alap := by
  obtain ⟨s, hrun, hrem, hlevel⟩ := levelPass_ok hpass
  have hstart : Kahn.Inv (fun u => h.iter (.pred u) (pred u)) (fun l lu => min l (lu - 1)) a.n
      (fun _ => maxLevel) [] (Kahn.start a.n (fun i => (a.succOf pred i).length) fun _ => maxLevel) :=
    Kahn.Inv.start fun v _ => (hP.preds_pred_perm h v).symm.length_eq
  have hrelax : ∀ u, h.iter (.pred u) (pred u) ≠ [] → ∀ l,
      checkedMin l (s.level u) = some (min l (s.level u - 1)) := by
    intro u hne l
    obtain ⟨p, hp⟩ := List.exists_mem_of_ne_nil _ hne
    have hlt := halap u p ((h.perm _ _).mem_iff.mp hp)
    rw [checkedMin, hlevel, if_neg (by omega)]
  have hchecked := hstart.runChecked_eq (hP.dag_pred h) a.n hrun hrelax
  rw [checkedLevelPass, hchecked]
  simp only [hrem, if_true, hlevel]

/-- For all dependency sets without a cycle, and in whatever order the sets are walked, the levels
are those of the longest paths, and no subtraction underflows. -/
theorem BuildArgs.levelsOf_longestPaths (h : HashOrder) (a : BuildArgs) (G : AcyclicPreds a) :
    ((∃ lv, a.levelsOf h G.pred = .ok lv) ↔ 0 < a.n) ∧
      ∀ lv, a.levelsOf h G.pred = .ok lv →
        lv.LongestPaths G ∧ a.checkedLevelsOf h G.pred = .ok lv := by
  obtain ⟨rank, hP⟩ := G.exists_predGraph
  obtain ⟨asap, hasap, hasapEq⟩ := hP.asap_pass h
  by_cases hn : 0 < a.n
  · have hmap : (List.range a.n).map asap ≠ [] := by simpa using Nat.pos_iff_ne_zero.mp hn
    obtain ⟨maxLevel, hmax⟩ := Option.ne_none_iff_exists'.mp (mt List.max?_eq_none_iff.mp hmap)
    obtain ⟨alap, halap, halapEq⟩ := hP.alap_pass h maxLevel
    let lv : Levels := ⟨G.pred, a.succOf G.pred, asap, alap, maxLevel⟩
    have hlv : lv.Computed a := ⟨rfl, hasapEq, hmax, halapEq⟩
    have hlevels : a.levelsOf h G.pred = .ok lv := by
      simp only [levelsOf, levelsBy, hasap, hmax, halap, lv]
    have hlongest : lv.LongestPaths G := hlv.longestPaths rfl hP
    have hchecked : a.checkedLevelsOf h G.pred = .ok lv := by
      have hpass := hP.checked_alap_pass h halap hlongest.alap_lt
      simp only [checkedLevelsOf, levelsBy, hasap, hmax, hpass, lv]
    refine ⟨⟨fun _ => hn, fun _ => ⟨lv, hlevels⟩⟩, ?_⟩
    intro lv' hlv'
    obtain rfl : lv = lv' := Except.ok.inj (hlevels.symm.trans hlv')
    exact ⟨hlongest, hchecked⟩
  · have hmax : ((List.range a.n).map asap).max? = none := by
      simp [Nat.eq_zero_of_not_pos hn]
    have hlevels : a.levelsOf h G.pred =
        .error "called `Option::unwrap()` on a `None` value" := by
      simp only [levelsOf, levelsBy, hasap, hmax]
    refine ⟨⟨?_, fun h => absurd h hn⟩, ?_⟩
    · rintro ⟨lv, hlv⟩
      rw [hlevels] at hlv
      cases hlv
    · intro lv hlv
      rw [hlevels] at hlv
      cases hlv

end MegaZK
