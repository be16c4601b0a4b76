import Mathlib.Data.List.Basic
import Mathlib.Data.List.Nodup
import Mathlib.Data.List.Perm.Subperm
import Mathlib.Data.Finset.Max
import Mathlib.Tactic.Common

/-! # Kahn's algorithm

A queue-driven traversal of a finite acyclic graph that relaxes a level along every edge. The
level of a node is final when the node enters the queue, so the result satisfies the level
equation at every node, whatever the order in which the edges out of a node are followed. -/

namespace Kahn

/-- The queue, the number of unfollowed edges into each node, the levels and the countdown. -/
structure State where
  queue : List ℕ
  deg : ℕ → ℕ
  level : ℕ → ℕ
  remaining : ℕ

variable (next : ℕ → List ℕ) (relax : ℕ → ℕ → ℕ)

/-- Follow the edge from `u` to `v`: relax the level of `v`, queue it after its last edge. -/
def visit (u : ℕ) (s : State) (v : ℕ) : State :=
  let level := Function.update s.level v (relax (s.level v) (s.level u))
  let deg := Function.update s.deg v (s.deg v - 1)
  if deg v = 0 then
    { queue := s.queue ++ [v], deg := deg, level := level, remaining := s.remaining - 1 }
  else
    { s with deg := deg, level := level }

/-- Pop nodes until the queue is empty. -/
def run : ℕ → State → Option State
  | 0, s => if s.queue = [] then some s else none
  | fuel + 1, s =>
    match s.queue with
    | [] => some s
    | u :: q => run fuel ((next u).foldl (visit relax u) { s with queue := q })

/-- `visit` with a relaxation that may fail. -/
def visitChecked (relax : ℕ → ℕ → Option ℕ) (u : ℕ) (s : State) (v : ℕ) : Option State :=
  (relax (s.level v) (s.level u)).map fun l => visit (fun _ _ => l) u s v

/-- `run` with a relaxation that may fail. -/
def runChecked (relax : ℕ → ℕ → Option ℕ) : ℕ → State → Option State
  | 0, s => if s.queue = [] then some s else none
  | fuel + 1, s =>
    match s.queue with
    | [] => some s
    | u :: q =>
      ((next u).foldlM (visitChecked relax u) { s with queue := q }).bind (runChecked relax fuel)

/-- Queue the nodes without incoming edges, in order. -/
def start (n : ℕ) (deg level : ℕ → ℕ) : State where
  queue := (List.range n).filter (deg · = 0)
  deg := deg
  level := level
  remaining := n - ((List.range n).filter (deg · = 0)).length

/-- The nodes with an edge to `v`. -/
def preds (n : ℕ) (v : ℕ) : List ℕ := (List.range n).filter (v ∈ next ·)

/-- A finite acyclic graph on the nodes below `n`. -/
structure Dag (n : ℕ) : Prop where
  nodup : ∀ u, (next u).Nodup
  lt : ∀ u v, v ∈ next u → u < n ∧ v < n
  rank : ∃ r : ℕ → ℕ, ∀ u v, v ∈ next u → r u < r v

variable {next relax}

lemma mem_preds {n u v : ℕ} : u ∈ preds next n v ↔ u < n ∧ v ∈ next u := by
  simp [preds]

lemma Dag.mem_preds_iff {n : ℕ} (hG : Dag next n) {u v : ℕ} :
    u ∈ preds next n v ↔ v ∈ next u := by
  rw [mem_preds]
  exact ⟨fun h => h.2, fun h => ⟨(hG.lt u v h).1, h⟩⟩

lemma Dag.irrefl {n : ℕ} (hG : Dag next n) (u : ℕ) : u ∉ next u := by
  obtain ⟨r, hr⟩ := hG.rank
  intro h
  exact Nat.lt_irrefl _ (hr u u h)

/-! ### Following all edges out of one node -/

/-- The effect of following the edges from `u` to the distinct nodes `vs`. -/
lemma foldl_visit {u : ℕ} (vs : List ℕ) (hvs : vs.Nodup) (hu : u ∉ vs) (s : State) :
    vs.foldl (visit relax u) s =
      { queue := s.queue ++ vs.filter (s.deg · - 1 = 0)
        deg := fun v => if v ∈ vs then s.deg v - 1 else s.deg v
        level := fun v => if v ∈ vs then relax (s.level v) (s.level u) else s.level v
        remaining := s.remaining - (vs.filter (s.deg · - 1 = 0)).length } := by
  induction vs generalizing s with
  | nil => simp
  | cons w vs ih =>
    obtain ⟨hw, hvs⟩ := List.nodup_cons.mp hvs
    obtain ⟨huw, hu⟩ := not_or.mp (fun h => hu (List.mem_cons.mpr h))
    -- a later node of the list differs from `w`, so the update at `w` does not touch it
    have hfilter : vs.filter (fun v => Function.update s.deg w (s.deg w - 1) v - 1 = 0) =
        vs.filter (s.deg · - 1 = 0) := by
      apply List.filter_congr
      intro v hv
      have hne : v ≠ w := fun h => hw (h ▸ hv)
      rw [Function.update_of_ne hne]
    have hdeg' : (fun v => if v ∈ vs then Function.update s.deg w (s.deg w - 1) v - 1
          else Function.update s.deg w (s.deg w - 1) v) =
        fun v => if v ∈ w :: vs then s.deg v - 1 else s.deg v := by
      funext v
      by_cases hv : v = w
      · subst hv; simp [hw]
      · simp [hv]
    have hlevel' : (fun v => if v ∈ vs then
            relax (Function.update s.level w (relax (s.level w) (s.level u)) v)
              (Function.update s.level w (relax (s.level w) (s.level u)) u)
          else Function.update s.level w (relax (s.level w) (s.level u)) v) =
        fun v => if v ∈ w :: vs then relax (s.level v) (s.level u) else s.level v := by
      funext v
      by_cases hv : v = w
      · subst hv; simp [hw]
      · simp [hv, Function.update_of_ne huw]
    rw [List.foldl_cons, ih hvs hu]
    unfold visit
    by_cases hdeg : s.deg w - 1 = 0
    · rw [if_pos (by simpa using hdeg)]
      simp only [List.filter_cons, hdeg, decide_true, ↓reduceIte, List.length_cons,
        List.append_assoc, List.cons_append, List.nil_append, State.mk.injEq]
      rw [hdeg] at hfilter hdeg'
      rw [hfilter]
      exact ⟨rfl, hdeg', hlevel', by omega⟩
    · rw [if_neg (by simpa using hdeg)]
      simp only [List.filter_cons, hdeg, decide_false, Bool.false_eq_true, ↓reduceIte,
        State.mk.injEq]
      rw [hfilter]
      exact ⟨rfl, hdeg', hlevel', rfl⟩

/-! ### The invariant of the run -/

/-- After the nodes `done` were popped: the queue holds the other nodes all of whose incoming
edges were followed, and every level is the relaxation over the followed edges. -/
structure Inv (next : ℕ → List ℕ) (relax : ℕ → ℕ → ℕ) (n : ℕ) (init : ℕ → ℕ)
    (done : List ℕ) (s : State) : Prop where
  nodup : (done ++ s.queue).Nodup
  lt : ∀ v ∈ done ++ s.queue, v < n
  deg : ∀ v < n, s.deg v = ((preds next n v).filter (· ∉ done)).length
  queued : ∀ v < n, v ∈ done ++ s.queue ↔ s.deg v = 0
  level : ∀ v, s.level v =
    (done.filter (v ∈ next ·)).foldl (fun l u => relax l (s.level u)) (init v)
  remaining : s.remaining = n - (done ++ s.queue).length

lemma Inv.start {n : ℕ} {deg level : ℕ → ℕ}
    (hdeg : ∀ v < n, deg v = (preds next n v).length) :
    Inv next relax n level [] (start n deg level) where
  nodup := by
    simp only [Kahn.start, List.nil_append]
    exact List.nodup_range.filter _
  lt := by
    intro v hv
    simp only [Kahn.start, List.nil_append, List.mem_filter, List.mem_range] at hv
    exact hv.1
  deg := by
    intro v hv
    simpa [Kahn.start] using hdeg v hv
  queued := by
    intro v hv
    simp [Kahn.start, hv]
  level := by simp [Kahn.start]
  remaining := by simp [Kahn.start]

/-- A node is popped once, and by then all edges into it have been followed. -/
lemma Inv.pred_mem_done {n : ℕ} (hG : Dag next n) {init : ℕ → ℕ} {done : List ℕ} {s : State}
    (hI : Inv next relax n init done s) {u v : ℕ} (hv : v ∈ done ++ s.queue)
    (huv : v ∈ next u) : u ∈ done := by
  have hvn := hI.lt v hv
  have hdeg : ((preds next n v).filter (· ∉ done)).length = 0 := by
    rw [← hI.deg v hvn]
    exact (hI.queued v hvn).mp hv
  rw [List.length_eq_zero_iff, List.filter_eq_nil_iff] at hdeg
  simpa using hdeg u (hG.mem_preds_iff.mpr huv)

lemma preds_nodup (n v : ℕ) : (preds next n v).Nodup :=
  List.nodup_range.filter _

/-- Popping `u` removes it from the unfollowed predecessors of its successors only. -/
lemma length_filter_not_mem_concat {n : ℕ} (hG : Dag next n) {done : List ℕ} {u : ℕ}
    (hu : u ∉ done) (v : ℕ) :
    ((preds next n v).filter (· ∉ done ++ [u])).length =
      if v ∈ next u then ((preds next n v).filter (· ∉ done)).length - 1
      else ((preds next n v).filter (· ∉ done)).length := by
  have hsplit : (preds next n v).filter (· ∉ done ++ [u]) =
      ((preds next n v).filter (· ∉ done)).erase u := by
    rw [((preds_nodup n v).filter _).erase_eq_filter, List.filter_filter]
    apply List.filter_congr
    intro w _
    by_cases hw : w = u <;> simp [hw]
  rw [hsplit, List.length_erase]
  simp [hG.mem_preds_iff, hu]

/-- The node at the head of the queue has not been popped. -/
lemma Inv.head_notMem {n : ℕ} {init : ℕ → ℕ} {done q : List ℕ} {s : State} {u : ℕ}
    (hI : Inv next relax n init done s) (hq : s.queue = u :: q) : u ∉ done := by
  have hnodup := hI.nodup
  rw [hq] at hnodup
  intro h
  exact (List.nodup_append.mp hnodup).2.2 u h u (by simp) rfl

/-- Its successors have not even been queued. -/
lemma Inv.notMem_of_mem_next {n : ℕ} (hG : Dag next n) {init : ℕ → ℕ} {done q : List ℕ}
    {s : State} {u : ℕ} (hI : Inv next relax n init done s) (hq : s.queue = u :: q) {v : ℕ}
    (hv : v ∈ next u) : v ∉ done ++ s.queue :=
  fun hmem => hI.head_notMem hq (hI.pred_mem_done hG hmem hv)

/-- Popping a node and following its edges keeps the invariant. -/
lemma Inv.step {n : ℕ} (hG : Dag next n) {init : ℕ → ℕ} {done q : List ℕ} {s : State} {u : ℕ}
    (hI : Inv next relax n init done s) (hq : s.queue = u :: q) :
    Inv next relax n init (done ++ [u])
      ((next u).foldl (visit relax u) { s with queue := q }) := by
  have hu : u ∉ done := hI.head_notMem hq
  have hfresh : ∀ v ∈ next u, v ∉ done ++ s.queue := fun v hv => hI.notMem_of_mem_next hG hq hv
  rw [foldl_visit (next u) (hG.nodup u) (hG.irrefl u)]
  have hqueue : (done ++ [u]) ++ (q ++ (next u).filter (s.deg · - 1 = 0)) =
      (done ++ s.queue) ++ (next u).filter (s.deg · - 1 = 0) := by
    simp [hq]
  have hdegpos : ∀ v ∈ next u, s.deg v ≠ 0 := by
    intro v hv h
    exact hfresh v hv ((hI.queued v (hG.lt u v hv).2).mpr h)
  refine ⟨?_, ?_, ?_, ?_, ?_, ?_⟩
  · rw [hqueue]
    refine List.nodup_append.mpr ⟨hI.nodup, (hG.nodup u).filter _, ?_⟩
    intro a ha b hb hab
    subst hab
    exact hfresh a (List.mem_of_mem_filter hb) ha
  · rw [hqueue]
    intro v hv
    rcases List.mem_append.mp hv with hv | hv
    · exact hI.lt v hv
    · exact (hG.lt u v (List.mem_of_mem_filter hv)).2
  · intro v hv
    rw [length_filter_not_mem_concat hG hu, ← hI.deg v hv]
  · intro v hv
    rw [hqueue, List.mem_append, hI.queued v hv, List.mem_filter]
    by_cases huv : v ∈ next u
    · have := hdegpos v huv
      simp only [huv, decide_eq_true_eq, true_and, ↓reduceIte]
      omega
    · simp [huv]
  · intro v
    -- levels of popped nodes are frozen: only successors of `u` change, and none was popped
    have hsame : ∀ w ∈ done ++ [u], w ∉ next u := by
      intro w hw hmem
      apply hfresh w hmem
      rw [hq]
      rcases List.mem_append.mp hw with hw | hw
      · simp [hw]
      · simp [List.mem_singleton.mp hw]
    rw [List.filter_append, List.foldl_append]
    have hold : (done.filter (v ∈ next ·)).foldl (fun l w => relax l
          (if w ∈ next u then relax (s.level w) (s.level u) else s.level w)) (init v) =
        s.level v := by
      rw [hI.level v]
      apply List.foldl_ext
      intro l w hw
      rw [if_neg (hsame w (List.mem_append_left _ (List.mem_of_mem_filter hw)))]
    simp only at hold ⊢
    rw [hold]
    by_cases huv : v ∈ next u
    · simp [huv, hG.irrefl u]
    · simp [huv]
  · rw [hqueue, List.length_append]
    simp only [hI.remaining]
    omega

/-- With an empty queue every node has been popped. -/
lemma Inv.done_of_queue_nil {n : ℕ} (hG : Dag next n) {init : ℕ → ℕ} {done : List ℕ}
    {s : State} (hI : Inv next relax n init done s) (hq : s.queue = []) :
    ∀ v < n, v ∈ done := by
  obtain ⟨r, hr⟩ := hG.rank
  intro v hv
  induction hrank : r v using Nat.strong_induction_on generalizing v with
  | _ k ih =>
    have hdeg : s.deg v = 0 := by
      rw [hI.deg v hv, List.length_eq_zero_iff, List.filter_eq_nil_iff]
      intro u hu
      have huv := hG.mem_preds_iff.mp hu
      simpa using ih (r u) (hrank ▸ hr u v huv) u (hG.lt u v huv).1 rfl
    simpa [hq] using (hI.queued v hv).mpr hdeg

/-- A run from a state that satisfies the invariant pops every node. -/
lemma Inv.run {n : ℕ} (hG : Dag next n) {init : ℕ → ℕ} (fuel : ℕ) {done : List ℕ} {s : State}
    (hI : Inv next relax n init done s) (hfuel : n ≤ done.length + fuel) :
    ∃ s' done', run next relax fuel s = some s' ∧ s'.queue = [] ∧
      Inv next relax n init done' s' := by
  have hlen : (done ++ s.queue).length ≤ n := by
    have hsub : done ++ s.queue ⊆ List.range n := fun v hv => List.mem_range.mpr (hI.lt v hv)
    simpa using (hI.nodup.subperm hsub).length_le
  induction fuel generalizing done s with
  | zero =>
    have hq : s.queue = [] := by
      rw [List.length_append] at hlen
      exact List.eq_nil_of_length_eq_zero (by omega)
    exact ⟨s, done, by simp [Kahn.run, hq], hq, hI⟩
  | succ fuel ih =>
    cases hq : s.queue with
    | nil => exact ⟨s, done, by simp [Kahn.run, hq], hq, hI⟩
    | cons u q =>
      have hI' := hI.step hG hq
      obtain ⟨s', done', hrun, hq', hI''⟩ := ih hI' (by simp; omega) (by
        have hsub : (done ++ [u]) ++
            ((next u).foldl (visit relax u) { s with queue := q }).queue ⊆ List.range n :=
          fun v hv => List.mem_range.mpr (hI'.lt v hv)
        simpa using (hI'.nodup.subperm hsub).length_le)
      exact ⟨s', done', by simpa [Kahn.run, hq] using hrun, hq', hI''⟩

/-! ### Relaxations that may fail -/

/-- The level of a queued node is not changed any more. -/
lemma Inv.level_eq_of_run {n : ℕ} (hG : Dag next n) {init : ℕ → ℕ} (fuel : ℕ) {done : List ℕ}
    {s s' : State} (hI : Inv next relax n init done s) (hrun : Kahn.run next relax fuel s = some s')
    {u : ℕ} (hu : u ∈ done ++ s.queue) : s'.level u = s.level u := by
  induction fuel generalizing done s with
  | zero =>
    rw [Kahn.run] at hrun
    split_ifs at hrun
    cases hrun
    rfl
  | succ fuel ih =>
    cases hq : s.queue with
    | nil =>
      simp only [Kahn.run, hq, Option.some.injEq] at hrun
      rw [hrun]
    | cons w q =>
      simp only [Kahn.run, hq] at hrun
      have hkeep : ((next w).foldl (visit relax w) { s with queue := q }).level u = s.level u := by
        rw [foldl_visit (next w) (hG.nodup w) (hG.irrefl w)]
        exact if_neg fun hw => hI.notMem_of_mem_next hG hq hw hu
      rw [← hkeep]
      refine ih (hI.step hG hq) hrun ?_
      rw [foldl_visit (next w) (hG.nodup w) (hG.irrefl w)]
      rw [hq] at hu
      simp only [List.mem_append, List.mem_cons, List.not_mem_nil, or_false] at hu ⊢
      tauto

lemma level_visit (u v : ℕ) (s : State) :
    (visit relax u s v).level = Function.update s.level v (relax (s.level v) (s.level u)) := by
  unfold visit
  dsimp only
  split_ifs
  · rfl
  · rfl

/-- As long as the relaxation succeeds at the level of `u`, so do all edges out of `u`. -/
lemma foldlM_visitChecked {relax' : ℕ → ℕ → Option ℕ} {u : ℕ} {vs : List ℕ} (hu : u ∉ vs)
    {s : State}
    (hrelax : vs ≠ [] → ∀ l, relax' l (s.level u) = some (relax l (s.level u))) :
    vs.foldlM (visitChecked relax' u) s = some (vs.foldl (visit relax u) s) := by
  induction vs generalizing s with
  | nil => rfl
  | cons v vs ih =>
    obtain ⟨huv, hu⟩ := not_or.mp (fun h => hu (List.mem_cons.mpr h))
    have hstep : visitChecked relax' u s v = some (visit relax u s v) := by
      rw [visitChecked, hrelax (List.cons_ne_nil v vs)]
      rfl
    have hlevel : (visit relax u s v).level u = s.level u := by
      rw [level_visit, Function.update_of_ne huv]
    rw [List.foldlM_cons, hstep, List.foldl_cons]
    refine ih hu fun _ => ?_
    rw [hlevel]
    exact hrelax (List.cons_ne_nil v vs)

/-- A run whose relaxation never fails at the final levels is the run without failures. -/
lemma Inv.runChecked_eq {n : ℕ} (hG : Dag next n) {init : ℕ → ℕ} {relax' : ℕ → ℕ → Option ℕ}
    (fuel : ℕ) {done : List ℕ} {s s' : State} (hI : Inv next relax n init done s)
    (hrun : Kahn.run next relax fuel s = some s')
    (hrelax : ∀ u, next u ≠ [] → ∀ l, relax' l (s'.level u) = some (relax l (s'.level u))) :
    runChecked next relax' fuel s = some s' := by
  induction fuel generalizing done s with
  | zero => exact hrun
  | succ fuel ih =>
    cases hq : s.queue with
    | nil =>
      simp only [Kahn.run, hq] at hrun
      simp only [runChecked, hq, hrun]
    | cons u q =>
      have hlevel := hI.level_eq_of_run hG (fuel + 1) hrun (u := u) (by simp [hq])
      simp only [Kahn.run, hq] at hrun
      have hfold : (next u).foldlM (visitChecked relax' u) { s with queue := q } =
          some ((next u).foldl (visit relax u) { s with queue := q }) := by
        refine foldlM_visitChecked (hG.irrefl u) fun hne l => ?_
        have hu := hrelax u hne l
        rwa [hlevel] at hu
      simp only [runChecked, hq, hfold, Option.bind_some]
      exact ih (hI.step hG hq) hrun

/-- On a finite acyclic graph the algorithm pops every node, and the level of every node is the
relaxation of its initial level along its incoming edges, in some order. -/
theorem run_start {n : ℕ} (hG : Dag next n) (relax : ℕ → ℕ → ℕ) {deg : ℕ → ℕ} (level : ℕ → ℕ)
    (hdeg : ∀ v < n, deg v = (preds next n v).length) :
    ∃ s, run next relax n (start n deg level) = some s ∧ s.remaining = 0 ∧
      ∀ v, ∃ l : List ℕ, l.Perm (preds next n v) ∧
        s.level v = l.foldl (fun a u => relax a (s.level u)) (level v) := by
  have hstart : Inv next relax n level [] (start n deg level) := Inv.start hdeg
  obtain ⟨s, done, hrun, hq, hI⟩ := hstart.run hG n (by simp)
  have hdone := hI.done_of_queue_nil hG hq
  have hnodup : done.Nodup := by simpa [hq] using hI.nodup
  have hperm : done.Perm (List.range n) := by
    rw [List.perm_ext_iff_of_nodup hnodup List.nodup_range]
    intro v
    rw [List.mem_range]
    exact ⟨fun h => hI.lt v (List.mem_append_left _ h), hdone v⟩
  refine ⟨s, hrun, ?_, ?_⟩
  · rw [hI.remaining, hq, List.append_nil, hperm.length_eq, List.length_range, Nat.sub_self]
  · intro v
    exact ⟨done.filter (v ∈ next ·), hperm.filter _, hI.level v⟩

end Kahn
