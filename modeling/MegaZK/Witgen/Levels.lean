import MegaZK.Witgen.Producers

/-! # The earliest and the latest levels

Both level passes of `build` end with every generator visited, and the two levels they give
increase strictly along the dependencies. -/

namespace MegaZK

variable {a : BuildArgs}

/-- What the placement relies on. -/
structure Levels.Valid (a : BuildArgs) (lv : Levels) : Prop where
  pred_lt : ∀ g < a.n, ∀ p ∈ lv.pred g, p < a.n
  asap_lt : ∀ g < a.n, ∀ p ∈ lv.pred g, lv.asap p < lv.asap g
  alap_lt : ∀ g < a.n, ∀ p ∈ lv.pred g, lv.alap p < lv.alap g
  asap_le_alap : ∀ g < a.n, lv.asap g ≤ lv.alap g
  alap_le : ∀ g < a.n, lv.alap g ≤ lv.maxLevel
  watched : ∀ g < a.n, ∀ r ∈ a.watchReps g,
    r ∈ a.inputReps ∨ ∃ p ∈ lv.pred g, r ∈ a.outputReps p

/-- The part of `Valid` that is about the levels alone. It does not depend on the generators
becoming ready. -/
structure Levels.Increasing (a : BuildArgs) (lv : Levels) : Prop where
  pred_lt : ∀ g < a.n, ∀ p ∈ lv.pred g, p < a.n
  asap_lt : ∀ g < a.n, ∀ p ∈ lv.pred g, lv.asap p < lv.asap g
  alap_lt : ∀ g < a.n, ∀ p ∈ lv.pred g, lv.alap p < lv.alap g
  asap_le_alap : ∀ g < a.n, lv.asap g ≤ lv.alap g
  alap_le : ∀ g < a.n, lv.alap g ≤ lv.maxLevel

lemma Levels.Valid.increasing {lv : Levels} (hlv : lv.Valid a) : lv.Increasing a :=
  ⟨hlv.pred_lt, hlv.asap_lt, hlv.alap_lt, hlv.asap_le_alap, hlv.alap_le⟩

/-- The equations that the levels of the two passes solve. -/
structure Levels.Computed (a : BuildArgs) (lv : Levels) : Prop where
  succ : lv.succ = a.succOf lv.pred
  asap : ∀ i, lv.asap i = (lv.pred i).foldl (fun m p => max m (lv.asap p + 1)) 0
  maxLevel : ((List.range a.n).map lv.asap).max? = some lv.maxLevel
  alap : ∀ i, lv.alap i = (lv.succ i).foldl (fun m u => min m (lv.alap u - 1)) lv.maxLevel

/-! ### Folds of `max` and `min` -/

lemma foldl_max_le {f : ℕ → ℕ} {l : List ℕ} {b m : ℕ} (hb : b ≤ m) (hl : ∀ u ∈ l, f u ≤ m) :
    l.foldl (fun x u => max x (f u)) b ≤ m := by
  induction l generalizing b with
  | nil => simpa using hb
  | cons u l ih =>
    exact ih (max_le hb (hl u (by simp))) (fun v hv => hl v (by simp [hv]))

lemma le_foldl_max (f : ℕ → ℕ) (l : List ℕ) (b : ℕ) :
    b ≤ l.foldl (fun x u => max x (f u)) b := by
  induction l generalizing b with
  | nil => simp
  | cons u l ih => exact le_trans (le_max_left _ _) (ih _)

lemma le_foldl_max_of_mem {f : ℕ → ℕ} {l : List ℕ} {u : ℕ} (hu : u ∈ l) (b : ℕ) :
    f u ≤ l.foldl (fun x u => max x (f u)) b := by
  induction l generalizing b with
  | nil => simp at hu
  | cons v l ih =>
    rcases List.mem_cons.mp hu with rfl | hu
    · exact le_trans (le_max_right _ _) (le_foldl_max f l _)
    · exact ih hu _

lemma foldl_max_eq (f : ℕ → ℕ) (l : List ℕ) (b : ℕ) :
    l.foldl (fun x u => max x (f u)) b = b ∨ ∃ u ∈ l, l.foldl (fun x u => max x (f u)) b = f u := by
  induction l generalizing b with
  | nil => exact .inl rfl
  | cons v l ih =>
    rcases ih (max b (f v)) with h | ⟨u, hu, h⟩
    · rcases max_choice b (f v) with hb | hv
      · exact .inl (h.trans hb)
      · exact .inr ⟨v, by simp, h.trans hv⟩
    · exact .inr ⟨u, by simp [hu], h⟩

lemma foldl_max_perm (f : ℕ → ℕ) {l l' : List ℕ} (hl : l.Perm l') (b : ℕ) :
    l.foldl (fun x u => max x (f u)) b = l'.foldl (fun x u => max x (f u)) b :=
  hl.foldl_eq' (fun u _ v _ x => max_right_comm x (f u) (f v)) b

lemma foldl_min_perm (f : ℕ → ℕ) {l l' : List ℕ} (hl : l.Perm l') (b : ℕ) :
    l.foldl (fun x u => min x (f u)) b = l'.foldl (fun x u => min x (f u)) b :=
  hl.foldl_eq' (fun u _ v _ x => min_right_comm x (f u) (f v)) b

lemma le_foldl_min {f : ℕ → ℕ} {l : List ℕ} {b m : ℕ} (hb : m ≤ b) (hl : ∀ u ∈ l, m ≤ f u) :
    m ≤ l.foldl (fun x u => min x (f u)) b := by
  induction l generalizing b with
  | nil => simpa using hb
  | cons u l ih =>
    exact ih (le_min hb (hl u (by simp))) (fun v hv => hl v (by simp [hv]))

lemma foldl_min_le (f : ℕ → ℕ) (l : List ℕ) (b : ℕ) :
    l.foldl (fun x u => min x (f u)) b ≤ b := by
  induction l generalizing b with
  | nil => simp
  | cons u l ih => exact le_trans (ih _) (min_le_left _ _)

lemma foldl_min_le_of_mem {f : ℕ → ℕ} {l : List ℕ} {u : ℕ} (hu : u ∈ l) (b : ℕ) :
    l.foldl (fun x u => min x (f u)) b ≤ f u := by
  induction l generalizing b with
  | nil => simp at hu
  | cons v l ih =>
    rcases List.mem_cons.mp hu with rfl | hu
    · exact le_trans (foldl_min_le f l _) (min_le_right _ _)
    · exact ih hu _

/-! ### The dependency graph -/

lemma BuildArgs.watchReps_of_le {i : ℕ} (hi : a.n ≤ i) : a.watchReps i = [] := by
  have hdefault : a.generator i = default := by
    rw [BuildArgs.generator, List.getD_eq_getElem?_getD, List.getElem?_eq_none hi]
    rfl
  rw [BuildArgs.watchReps, hdefault]
  rfl

lemma BuildArgs.mem_predOf {producer : ℕ → Option Producer} {i p : ℕ} :
    p ∈ a.predOf producer i ↔
      p ≠ i ∧ ∃ r ∈ a.watchReps i, producer r = some (.generator p) := by
  rw [BuildArgs.predOf, List.mem_dedup, List.mem_filterMap]
  constructor
  · rintro ⟨r, hr, hp⟩
    split at hp
    · rename_i q hq
      split_ifs at hp with hne
      obtain rfl := Option.some.inj hp
      exact ⟨hne, r, hr, hq⟩
    · cases hp
  · rintro ⟨hne, r, hr, hp⟩
    exact ⟨r, hr, by simp [hp, hne]⟩

lemma BuildArgs.nodup_succOf (pred : ℕ → List ℕ) (p : ℕ) : (a.succOf pred p).Nodup :=
  List.nodup_range.filter _

lemma BuildArgs.mem_succOf {pred : ℕ → List ℕ} {p i : ℕ} :
    i ∈ a.succOf pred p ↔ i < a.n ∧ p ∈ pred i := by
  simp [BuildArgs.succOf]

/-- The facts about the dependency sets that the two passes need. -/
structure PredGraph (a : BuildArgs) (pred : ℕ → List ℕ) (rank : ℕ → ℕ) : Prop where
  nodup : ∀ i, (pred i).Nodup
  lt : ∀ i, ∀ p ∈ pred i, i < a.n ∧ p < a.n
  rank : ∀ i, ∀ p ∈ pred i, rank p < rank i

/-- Only generators that became ready provide targets, so the dependency sets are ordered even
when other generators never become ready. -/
lemma Bfs.Inv.predGraph {order : List ℕ} {s : Bfs} (hI : Bfs.Inv a order s) :
    PredGraph a (a.predOf s.targetProducer) order.idxOf where
  nodup i := List.nodup_dedup _
  lt i p hp := by
    obtain ⟨-, r, hr, hprod⟩ := BuildArgs.mem_predOf.mp hp
    refine ⟨?_, hI.lt p (hI.provides r _ hprod).1⟩
    by_contra hi
    rw [BuildArgs.watchReps_of_le (not_lt.mp hi)] at hr
    simp at hr
  rank i p hp := by
    obtain ⟨-, r, hr, hprod⟩ := BuildArgs.mem_predOf.mp hp
    by_cases hi : i ∈ order
    · exact hI.before i hi r hr p hprod
    · rw [List.idxOf_of_notMem hi]
      exact List.idxOf_lt_length_of_mem (hI.provides r _ hprod).1

namespace PredGraph

variable {pred : ℕ → List ℕ} {rank : ℕ → ℕ} (h : HashOrder)

/-- The graph of the `asap` pass: edges from a generator to those that wait for it. -/
lemma dag_succ (hP : PredGraph a pred rank) :
    Kahn.Dag (fun u => h.iter (.succ u) (a.succOf pred u)) a.n where
  nodup u := (h.perm _ _).nodup_iff.mpr (BuildArgs.nodup_succOf pred u)
  lt u v hv := by
    rw [(h.perm _ _).mem_iff, BuildArgs.mem_succOf] at hv
    exact ⟨(hP.lt v u hv.2).2, hv.1⟩
  rank := by
    refine ⟨rank, fun u v hv => ?_⟩
    rw [(h.perm _ _).mem_iff, BuildArgs.mem_succOf] at hv
    exact hP.rank v u hv.2

/-- The graph of the `alap` pass: edges from a generator to its predecessors. -/
lemma dag_pred (hP : PredGraph a pred rank) :
    Kahn.Dag (fun u => h.iter (.pred u) (pred u)) a.n where
  nodup u := (h.perm _ _).nodup_iff.mpr (hP.nodup u)
  lt u v hv := by
    rw [(h.perm _ _).mem_iff] at hv
    exact hP.lt u v hv
  rank := by
    -- ranks of the finitely many generators, turned around
    refine ⟨fun v => (Finset.range a.n).sup rank - rank v, fun u v hv => ?_⟩
    rw [(h.perm _ _).mem_iff] at hv
    have hlt := hP.rank u v hv
    have hle : rank u ≤ (Finset.range a.n).sup rank :=
      Finset.le_sup (f := rank) (Finset.mem_range.mpr (hP.lt u v hv).1)
    simp only
    omega

lemma preds_succ_perm (hP : PredGraph a pred rank) (i : ℕ) :
    (Kahn.preds (fun u => h.iter (.succ u) (a.succOf pred u)) a.n i).Perm (pred i) := by
  rw [List.perm_ext_iff_of_nodup (Kahn.preds_nodup _ _) (hP.nodup i)]
  intro p
  rw [(hP.dag_succ h).mem_preds_iff, (h.perm _ _).mem_iff, BuildArgs.mem_succOf]
  exact ⟨fun hp => hp.2, fun hp => ⟨(hP.lt i p hp).1, hp⟩⟩

lemma preds_pred_perm (hP : PredGraph a pred rank) (i : ℕ) :
    (Kahn.preds (fun u => h.iter (.pred u) (pred u)) a.n i).Perm (a.succOf pred i) := by
  rw [List.perm_ext_iff_of_nodup (Kahn.preds_nodup _ _) (BuildArgs.nodup_succOf pred i)]
  intro g
  rw [(hP.dag_pred h).mem_preds_iff, (h.perm _ _).mem_iff, BuildArgs.mem_succOf]
  exact ⟨fun hg => ⟨(hP.lt g i hg).1, hg⟩, fun hg => hg.2⟩

/-- The `asap` pass succeeds, whatever the order of the hash sets. -/
lemma asap_pass (hP : PredGraph a pred rank) :
    ∃ asap, levelPass a.n (fun u => h.iter (.succ u) (a.succOf pred u))
        (fun l lu => max l (lu + 1)) (fun i => (pred i).length) (fun _ => 0) = .ok asap ∧
      ∀ i, asap i = (pred i).foldl (fun m p => max m (asap p + 1)) 0 := by
  obtain ⟨s, hrun, hrem, hlevel⟩ := Kahn.run_start (hP.dag_succ h)
    (fun l lu => max l (lu + 1)) (fun _ => 0)
    (fun v _ => (hP.preds_succ_perm h v).symm.length_eq)
  refine ⟨s.level, by simp [levelPass, hrun, hrem], ?_⟩
  intro i
  obtain ⟨l, hl, heq⟩ := hlevel i
  rw [heq]
  exact foldl_max_perm (fun p => s.level p + 1) (hl.trans (hP.preds_succ_perm h i)) 0

/-- The `alap` pass succeeds, whatever the order of the hash sets. -/
lemma alap_pass (hP : PredGraph a pred rank) (maxLevel : ℕ) :
    ∃ alap, levelPass a.n (fun u => h.iter (.pred u) (pred u)) (fun l lu => min l (lu - 1))
        (fun i => (a.succOf pred i).length) (fun _ => maxLevel) = .ok alap ∧
      ∀ i, alap i = (a.succOf pred i).foldl (fun m u => min m (alap u - 1)) maxLevel := by
  obtain ⟨s, hrun, hrem, hlevel⟩ := Kahn.run_start (hP.dag_pred h)
    (fun l lu => min l (lu - 1)) (fun _ => maxLevel)
    (fun v _ => (hP.preds_pred_perm h v).symm.length_eq)
  refine ⟨s.level, by simp [levelPass, hrun, hrem], ?_⟩
  intro i
  obtain ⟨l, hl, heq⟩ := hlevel i
  rw [heq]
  exact foldl_min_perm (fun u => s.level u - 1) (hl.trans (hP.preds_pred_perm h i)) maxLevel

/-- The ranks of the finitely many generators, turned around: the distance to the largest rank
decreases from a generator to its successors. -/
lemma sub_rank_lt (hP : PredGraph a pred rank) {i p : ℕ} (hp : p ∈ pred i) :
    (Finset.range a.n).sup rank - rank i < (Finset.range a.n).sup rank - rank p := by
  have hrank := hP.rank i p hp
  have hle : rank i ≤ (Finset.range a.n).sup rank :=
    Finset.le_sup (f := rank) (Finset.mem_range.mpr (hP.lt i p hp).1)
  omega

end PredGraph

namespace Levels.Computed

variable {lv : Levels} {rank : ℕ → ℕ}

lemma asap_lt (hlv : lv.Computed a) {i p : ℕ} (hp : p ∈ lv.pred i) : lv.asap p < lv.asap i := by
  rw [hlv.asap i]
  exact le_foldl_max_of_mem (f := fun p => lv.asap p + 1) hp 0

/-- A generator above the first level waits for one on the level just below. -/
lemma exists_asap_pred (hlv : lv.Computed a) {i : ℕ} (hi : 0 < lv.asap i) :
    ∃ p ∈ lv.pred i, lv.asap p + 1 = lv.asap i := by
  rcases foldl_max_eq (fun p => lv.asap p + 1) (lv.pred i) 0 with h | ⟨p, hp, h⟩
  · rw [← hlv.asap i] at h
    omega
  · exact ⟨p, hp, by rw [hlv.asap i, h]⟩

lemma asap_le_maxLevel (hlv : lv.Computed a) {i : ℕ} (hi : i < a.n) :
    lv.asap i ≤ lv.maxLevel :=
  (List.max?_eq_some_iff.mp hlv.maxLevel).2 _ (List.mem_map_of_mem (List.mem_range.mpr hi))

/-- Some generator reaches the last level. -/
lemma exists_asap_maxLevel (hlv : lv.Computed a) : ∃ g < a.n, lv.asap g = lv.maxLevel := by
  obtain ⟨g, hg, heq⟩ := List.mem_map.mp (List.max?_eq_some_iff.mp hlv.maxLevel).1
  exact ⟨g, List.mem_range.mp hg, heq⟩

lemma alap_le_maxLevel (hlv : lv.Computed a) (i : ℕ) : lv.alap i ≤ lv.maxLevel := by
  rw [hlv.alap i]
  exact foldl_min_le (fun u => lv.alap u - 1) _ _

lemma alap_le_pred (hlv : lv.Computed a) {i p : ℕ} (hi : i < a.n) (hp : p ∈ lv.pred i) :
    lv.alap p ≤ lv.alap i - 1 := by
  rw [hlv.alap p]
  refine foldl_min_le_of_mem (f := fun u => lv.alap u - 1) ?_ _
  rw [hlv.succ]
  exact BuildArgs.mem_succOf.mpr ⟨hi, hp⟩

/-- Generators never lie later than their latest level: downwards along the dependencies. -/
lemma asap_le_alap (hlv : lv.Computed a) (hP : PredGraph a lv.pred rank) {i : ℕ} (hi : i < a.n) :
    lv.asap i ≤ lv.alap i := by
  induction hk : (Finset.range a.n).sup rank - rank i using Nat.strong_induction_on
    generalizing i with
  | _ k ih =>
    rw [hlv.alap i]
    refine le_foldl_min (f := fun u => lv.alap u - 1) (hlv.asap_le_maxLevel hi) ?_
    intro u hu
    rw [hlv.succ, BuildArgs.mem_succOf] at hu
    have hle := ih _ (hk ▸ hP.sub_rank_lt hu.2) hu.1 rfl
    have hlt := hlv.asap_lt hu.2
    omega

lemma increasing (hlv : lv.Computed a) (hP : PredGraph a lv.pred rank) : lv.Increasing a where
  pred_lt g _ p hp := (hP.lt g p hp).2
  asap_lt g _ p hp := hlv.asap_lt hp
  alap_lt g hg p hp := by
    have h₁ := hlv.alap_le_pred hg hp
    have h₂ := hlv.asap_lt hp
    have h₃ := hlv.asap_le_alap hP hg
    omega
  asap_le_alap g hg := hlv.asap_le_alap hP hg
  alap_le g _ := hlv.alap_le_maxLevel g

/-- A longest chain of dependencies has a generator without slack on every level. -/
lemma exists_critical (hlv : lv.Computed a) (hinc : lv.Increasing a) {l : ℕ}
    (hl : l ≤ lv.maxLevel) : ∃ g < a.n, lv.asap g = l ∧ lv.alap g = l := by
  induction hl using Nat.decreasingInduction with
  | self =>
    obtain ⟨g, hg, hasap⟩ := hlv.exists_asap_maxLevel
    have h₁ := hinc.asap_le_alap g hg
    have h₂ := hinc.alap_le g hg
    exact ⟨g, hg, hasap, by omega⟩
  | of_succ l _ ih =>
    obtain ⟨g, hg, hasap, halap⟩ := ih
    obtain ⟨p, hp, hpred⟩ := hlv.exists_asap_pred (i := g) (by omega)
    have hpn := hinc.pred_lt g hg p hp
    have h₁ := hinc.asap_le_alap p hpn
    have h₂ := hinc.alap_lt g hg p hp
    exact ⟨p, hpn, by omega, by omega⟩

/-- The equations have one solution. -/
lemma ext (hlv : lv.Computed a) (hP : PredGraph a lv.pred rank) {lv' : Levels}
    (hlv' : lv'.Computed a) (hpred : lv.pred = lv'.pred) : lv = lv' := by
  have hasap : lv.asap = lv'.asap := by
    funext i
    induction hk : rank i using Nat.strong_induction_on generalizing i with
    | _ k ih =>
      rw [hlv.asap i, hlv'.asap i, ← hpred]
      refine List.foldl_ext _ _ _ fun m p hp => ?_
      rw [ih _ (hk ▸ hP.rank i p hp) p rfl]
  have hmax : lv.maxLevel = lv'.maxLevel := by
    have h := hlv.maxLevel
    rw [hasap, hlv'.maxLevel] at h
    exact (Option.some.inj h).symm
  have hsucc : lv.succ = lv'.succ := by rw [hlv.succ, hlv'.succ, hpred]
  have halap : lv.alap = lv'.alap := by
    funext i
    induction hk : (Finset.range a.n).sup rank - rank i using Nat.strong_induction_on
      generalizing i with
    | _ k ih =>
      rw [hlv.alap i, hlv'.alap i, ← hsucc, hmax]
      refine List.foldl_ext _ _ _ fun m u hu => ?_
      rw [hlv.succ, BuildArgs.mem_succOf] at hu
      rw [ih _ (hk ▸ hP.sub_rank_lt hu.2) u rfl]
  cases lv
  cases lv'
  simp_all

end Levels.Computed

/-- Both passes succeed for every non-empty set of generators, ready or not. -/
lemma BuildArgs.levels_computed (h : HashOrder) (hn : 0 < a.n) {s : Bfs}
    (hrun : Bfs.run a = some s) {rank : ℕ → ℕ}
    (hP : PredGraph a (a.predOf s.targetProducer) rank) :
    ∃ lv, a.levels h = .ok lv ∧ lv.pred = a.predOf s.targetProducer ∧ lv.Computed a := by
  obtain ⟨asap, hasap, hasapEq⟩ := hP.asap_pass h
  have hmap : (List.range a.n).map asap ≠ [] := by
    simpa using Nat.pos_iff_ne_zero.mp hn
  obtain ⟨maxLevel, hmax⟩ := Option.ne_none_iff_exists'.mp (mt List.max?_eq_none_iff.mp hmap)
  obtain ⟨alap, halap, halapEq⟩ := hP.alap_pass h maxLevel
  let pred := a.predOf s.targetProducer
  refine ⟨⟨pred, a.succOf pred, asap, alap, maxLevel⟩, ?_, rfl, ⟨rfl, hasapEq, hmax, halapEq⟩⟩
  simp only [BuildArgs.levels, hrun, hasap, hmax, halap, pred]

/-- The levels of every non-empty set of generators increase along the dependencies, and do not
depend on the order of the hash sets. -/
lemma BuildArgs.levels_spec (hn : 0 < a.n) :
    ∃ lv, (∀ h, a.levels h = .ok lv) ∧ lv.Computed a ∧ lv.Increasing a := by
  obtain ⟨order, s, hrun, hI, -, -⟩ := Bfs.run_spec a
  have hP := hI.predGraph
  obtain ⟨lv, -, hpred, hlv⟩ := a.levels_computed .insertion hn hrun hP
  rw [← hpred] at hP
  refine ⟨lv, fun h => ?_, hlv, hlv.increasing hP⟩
  obtain ⟨lv', hlv', hpred', hcomputed⟩ := a.levels_computed h hn hrun (hpred ▸ hP)
  rw [hlv', hlv.ext hP hcomputed (hpred.trans hpred'.symm)]

/-- Without generators `build` has no last level. -/
lemma BuildArgs.levels_of_n_eq_zero (h : HashOrder) (hn : a.n = 0) :
    a.levels h = .error "called `Option::unwrap()` on a `None` value" := by
  obtain ⟨order, s, hrun, hI, -, -⟩ := Bfs.run_spec a
  obtain ⟨asap, hasap, -⟩ := hI.predGraph.asap_pass h
  have hmax : ((List.range a.n).map asap).max? = none := by simp [hn]
  simp only [BuildArgs.levels, hrun, hasap, hmax]

lemma BuildArgs.n_pos_of_levels {h : HashOrder} {lv : Levels} (hlv : a.levels h = .ok lv) :
    0 < a.n := by
  by_contra hn
  rw [a.levels_of_n_eq_zero h (by omega)] at hlv
  cases hlv

/-- When every generator becomes ready, both passes succeed and their levels are valid. -/
lemma BuildArgs.levels_ok (h : HashOrder) (hready : a.AllReady) (hn : 0 < a.n) :
    ∃ lv, a.levels h = .ok lv ∧ lv.Valid a := by
  obtain ⟨order, s, hrun, hI, hout, hin⟩ := Bfs.run_spec a
  have hall : ∀ g < a.n, g ∈ order :=
    fun g hg => Bfs.mem_order_of_ready hI hout hin hg (hready g hg)
  have hP := hI.predGraph
  obtain ⟨lv, hlevels, hpred, hlv⟩ := a.levels_computed h hn hrun hP
  rw [← hpred] at hP
  have hinc := hlv.increasing hP
  refine ⟨lv, hlevels, ⟨hinc.pred_lt, hinc.asap_lt, hinc.alap_lt, hinc.asap_le_alap,
    hinc.alap_le, ?_⟩⟩
  intro g hg r hr
  have hsome := hI.isSome_of_mem (hall g hg) hr
  obtain ⟨who, hwho⟩ := Option.isSome_iff_exists.mp hsome
  have hprov := hI.provides r who hwho
  cases who with
  | input => exact .inl hprov
  | generator p =>
    rw [hpred]
    refine .inr ⟨p, BuildArgs.mem_predOf.mpr ⟨?_, r, hr, hwho⟩, hprov.2⟩
    -- the producer became ready before `g`
    rintro rfl
    exact lt_irrefl _ (hI.before p (hall p hg) r hr p hwho)

end MegaZK
