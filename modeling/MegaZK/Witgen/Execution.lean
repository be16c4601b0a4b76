import MegaZK.Witgen.HostWitness
import MegaZK.Witgen.PlanMaps

/-! # Witness generation on the device

Layer by layer, every slot of the plan receives the value that the host computes for the
representative it stands for. -/

namespace MegaZK

variable {a : BuildArgs}

/-! ### Schedules -/

/-- A valid schedule can be turned into a plan. -/
lemma Schedule.runnable {s : Schedule} (hlevels : s.levels.Valid a)
    (hvalid : ∀ g < a.n, s.ValidAt a g)
    (hlt : ∀ l ty, ∀ g ∈ (s.layer l).getD ty [], g < a.n) : s.Runnable a := by
  have hlt' : ∀ l, ∀ b ∈ (s.layer l).toList, ∀ g ∈ b.2, g < a.n := by
    intro l b hb g hg
    rw [← Batches.mem_toList hb] at hg
    exact hlt l b.1 g hg
  -- a generator of a batch stands where it was placed
  have hplace : ∀ l, ∀ b ∈ (s.layer l).toList, ∀ g ∈ b.2, ∀ level, s.PlacedAt a g level →
      l = level ∧ b.1 = (a.generator g).id := by
    intro l b hb g hg level hplaced
    rw [← Batches.mem_toList hb, ← List.count_pos_iff, hplaced l b.1] at hg
    split_ifs at hg with h
    · exact h
    · omega
  have hcount : ∀ l, ∀ b ∈ (s.layer l).toList, b.2.Nodup := by
    intro l b hb
    rw [List.nodup_iff_count_le_one]
    intro g
    by_cases hg : g ∈ b.2
    · obtain ⟨level, hplaced, -⟩ := hvalid g (hlt' l b hb g hg)
      rw [← Batches.mem_toList hb, hplaced l b.1]
      split_ifs <;> omega
    · rw [List.count_eq_zero_of_not_mem hg]
      omega
  refine ⟨hlt', ?_, ?_, ?_, ?_, ?_⟩
  · intro l b hb g hg
    obtain ⟨level, hplaced, -⟩ := hvalid g (hlt' l b hb g hg)
    exact (hplace l b hb g hg level hplaced).2.symm
  · intro l b hb
    have hsub : b.2 ⊆ List.range a.n := fun g hg => List.mem_range.mpr (hlt' l b hb g hg)
    simpa using (List.subperm_of_subset (hcount l b hb) hsub).length_le
  · intro g hg
    obtain ⟨level, hplaced, hmax, -⟩ := hvalid g hg
    obtain ⟨b, hb, hgb⟩ := hplaced.exists_mem_toList
    exact ⟨level, hmax, b, hb, hgb⟩
  · intro l l' b hb b' hb' i i' g hi hi'
    have hg := List.mem_of_getElem? hi
    have hg' := List.mem_of_getElem? hi'
    obtain ⟨level, hplaced, -⟩ := hvalid g (hlt' l b hb g hg)
    obtain ⟨rfl, hty⟩ := hplace l b hb g hg level hplaced
    obtain ⟨rfl, hty'⟩ := hplace l' b' hb' g hg' _ hplaced
    have hbb : b = b' := by
      refine Prod.ext (hty.trans hty'.symm) ?_
      rw [← Batches.mem_toList hb, ← Batches.mem_toList hb', hty, hty']
    subst hbb
    refine ⟨rfl, rfl, ?_⟩
    have hnodup := hcount _ b hb
    exact (List.getElem?_inj (List.getElem?_eq_some_iff.mp hi).1 hnodup).mp (hi.trans hi'.symm)
  · intro l b hb g hg r hr
    have hgn := hlt' l b hb g hg
    refine (hlevels.watched g hgn r hr).imp_right ?_
    rintro ⟨p, hp, hout⟩
    obtain ⟨level, hplaced, -, -, -, hpred⟩ := hvalid g hgn
    obtain ⟨rfl, -⟩ := hplace l b hb g hg level hplaced
    obtain ⟨level', hlt'', hplaced'⟩ := hpred p hp
    obtain ⟨b', hb', hpb'⟩ := hplaced'.exists_mem_toList
    exact ⟨level', hlt'', b', hb', p, hpb', hout⟩

/-! ### Threads -/

variable {F : Type*}

/-- Every kernel computes `run_once` of the generators of its id, from their parameters and the
values they watch. -/
def KernelsCompute (a : BuildArgs) (runOnce : ℕ → List F → List F)
    (kernel : String → (ℕ → ℕ) → (ℕ → F) → List F) : Prop :=
  ∀ g < a.n, ∀ (params : ℕ → ℕ) (reads : ℕ → F) (vals : List F),
    (∀ j x, (a.generator g).params[j]? = some x → params j = x) →
    vals.length = (a.watchReps g).length → (∀ j v, vals[j]? = some v → reads j = v) →
    kernel (a.generator g).id params reads = runOnce g vals

/-- The slots of the inputs and of the threads `done` hold the values of their
representatives. -/
structure Holds (a : BuildArgs) (V : ℕ → F) (done : List Thread) (witness : ℕ → F) : Prop where
  input : ∀ k r, a.inputReps[k]? = some r → witness k = V r
  output : ∀ t ∈ done, ∀ j r, (a.outputReps t.gen)[j]? = some r →
    witness (t.slot .write j) = V r

/-- `r` has its slot among those of the inputs and of the threads `done`. -/
def OwnedBy (a : BuildArgs) (writeMap : ℕ → ℕ) (done : List Thread) (r : ℕ) : Prop :=
  (∃ k, a.inputReps[k]? = some r ∧ writeMap r = k) ∨
    ∃ t ∈ done, ∃ j, (a.outputReps t.gen)[j]? = some r ∧ writeMap r = t.slot .write j

lemma OwnedBy.mono {writeMap : ℕ → ℕ} {done done' : List Thread} (h : done ⊆ done') {r : ℕ}
    (hr : OwnedBy a writeMap done r) : OwnedBy a writeMap done' r := by
  refine hr.imp_right ?_
  rintro ⟨t, ht, hj⟩
  exact ⟨t, h ht, hj⟩

lemma Holds.apply_writeMap {V : ℕ → F} {done : List Thread} {witness : ℕ → F}
    (h : Holds a V done witness) {writeMap : ℕ → ℕ} {r : ℕ}
    (hr : OwnedBy a writeMap done r) : witness (writeMap r) = V r := by
  rcases hr with ⟨k, hk, heq⟩ | ⟨t, ht, j, hj, heq⟩
  · rw [heq]
    exact h.input k r hk
  · rw [heq]
    exact h.output t ht j r hj

/-- What the execution needs from a plan. -/
structure WitnessPlan.Executable (a : BuildArgs) (p : WitnessPlan) (all : List KernelBatch) :
    Prop where
  laid : ∃ limit : Region → ℕ, (∀ k, limit k < 2 ^ 32) ∧ Laid a all limit
  gen_lt : ∀ t ∈ threads all, t.gen < a.n
  type : ∀ t ∈ threads all, t.batch.type = (a.generator t.gen).id
  read : ∀ t ∈ threads all, ∀ j r, (a.watchReps t.gen)[j]? = some r →
    p.readMap (t.slot .read j) = p.writeMap r
  param : ∀ t ∈ threads all, ∀ j x, (a.generator t.gen).params[j]? = some x →
    p.params (t.slot .params j) = x

namespace WitnessPlan.Executable

variable {p : WitnessPlan} {all : List KernelBatch}

lemma u32_slot (hp : p.Executable a all) {t : Thread} (ht : t ∈ threads all) {k : Region} {j : ℕ}
    (hj : j < a.items k t.gen) : u32 (t.slot k j) = t.slot k j := by
  obtain ⟨limit, hlimit, hlaid⟩ := hp.laid
  exact u32_of_lt ((hlaid.slot_lt ht hj).2.trans (hlimit k))

lemma slot_inj (hp : p.Executable a all) {t t' : Thread} (ht : t ∈ threads all)
    (ht' : t' ∈ threads all) {k : Region} {j j' : ℕ} (hj : j < a.items k t.gen)
    (hj' : j' < a.items k t'.gen) (h : t.slot k j = t'.slot k j') : t = t' ∧ j = j' := by
  obtain ⟨limit, -, hlaid⟩ := hp.laid
  exact hlaid.slot_inj ht ht' hj hj' h

lemma origin_le_slot (hp : p.Executable a all) {t : Thread} (ht : t ∈ threads all) {k : Region}
    {j : ℕ} (hj : j < a.items k t.gen) : a.origin k ≤ t.slot k j := by
  obtain ⟨limit, -, hlaid⟩ := hp.laid
  exact (hlaid.slot_lt ht hj).1

/-- A thread whose dependencies are there stores the values of its outputs. -/
lemma holds_runThread (hp : p.Executable a all) {runOnce : ℕ → List F → List F} {inputs : List F}
    {V : ℕ → F} (hV : Consistent a runOnce inputs V)
    {kernel : String → (ℕ → ℕ) → (ℕ → F) → List F} (hkernel : KernelsCompute a runOnce kernel)
    {done : List Thread} (hdone : done ⊆ threads all) {witness : ℕ → F}
    (hw : Holds a V done witness) {t : Thread} (ht : t ∈ threads all)
    (hwatch : ∀ r ∈ a.watchReps t.gen, OwnedBy a p.writeMap done r) :
    Holds a V (t :: done) (p.runThread kernel witness t) := by
  have hout : kernel t.batch.type
      (fun j => p.params (u32 (t.batch.paramsStart + t.tid + j * t.batch.len)))
      (fun j => witness (p.readMap (u32 (t.batch.readStart + t.tid + j * t.batch.len)))) =
      (a.outputReps t.gen).map V := by
    rw [hp.type t ht, ← hV.output _ (hp.gen_lt t ht)]
    refine hkernel _ (hp.gen_lt t ht) _ _ _ ?_ (by simp) ?_
    · intro j x hj
      have hslot := hp.u32_slot ht (k := .params) (List.getElem?_eq_some_iff.mp hj).1
      exact (congrArg p.params hslot).trans (hp.param t ht j x hj)
    · intro j v hj
      rw [List.getElem?_map, Option.map_eq_some_iff] at hj
      obtain ⟨r, hj, rfl⟩ := hj
      have hslot := hp.u32_slot ht (k := .read) (List.getElem?_eq_some_iff.mp hj).1
      have hread : p.readMap (u32 (t.slot .read j)) = p.writeMap r := by
        rw [hslot, hp.read t ht j r hj]
      exact (congrArg witness hread).trans
        (hw.apply_writeMap (hwatch r (List.mem_of_getElem? hj)))
  -- the outputs as a scatter over the pairs of a value and its index
  have hrun : p.runThread kernel witness t =
      Scatter.scatter ((a.outputReps t.gen).map V).zipIdx
        (fun vj => u32 (t.slot .write vj.2)) Prod.fst witness := by
    unfold WitnessPlan.runThread
    simp only [hout]
    rfl
  have hpair : ∀ vj ∈ ((a.outputReps t.gen).map V).zipIdx,
      ∃ r, (a.outputReps t.gen)[vj.2]? = some r ∧ vj.1 = V r := by
    intro vj hvj
    have hget := List.mk_mem_zipIdx_iff_getElem?.mp
      (show (vj.1, vj.2) ∈ ((a.outputReps t.gen).map V).zipIdx from hvj)
    rw [List.getElem?_map, Option.map_eq_some_iff] at hget
    obtain ⟨r, hr, heq⟩ := hget
    exact ⟨r, hr, heq.symm⟩
  rw [hrun]
  constructor
  · intro k r hk
    rw [Scatter.scatter_of_forall_ne witness, hw.input k r hk]
    intro vj hvj
    obtain ⟨_, hr, -⟩ := hpair vj hvj
    have hlt := (List.getElem?_eq_some_iff.mp hr).1
    have hk' := (List.getElem?_eq_some_iff.mp hk).1
    have horigin := hp.origin_le_slot ht (k := .write) hlt
    simp only [hp.u32_slot ht (k := .write) hlt]
    simp only [BuildArgs.inputReps, List.length_map] at hk'
    simp only [BuildArgs.origin] at horigin
    omega
  · intro t' ht' j r hj
    have hmem : t' ∈ threads all := by
      rcases List.mem_cons.mp ht' with rfl | ht'
      · exact ht
      · exact hdone ht'
    have hlt := (List.getElem?_eq_some_iff.mp hj).1
    -- whoever writes to this slot writes the same output
    have hsame : ∀ vj ∈ ((a.outputReps t.gen).map V).zipIdx,
        u32 (t.slot .write vj.2) = t'.slot .write j → vj.1 = V r := by
      intro vj hvj heq
      obtain ⟨r', hr', hval⟩ := hpair vj hvj
      have hlt' := (List.getElem?_eq_some_iff.mp hr').1
      rw [hp.u32_slot ht (k := .write) hlt'] at heq
      obtain ⟨rfl, rfl⟩ := hp.slot_inj ht hmem (k := .write) hlt' hlt heq
      rw [hr'] at hj
      rw [hval, Option.some.inj hj]
    by_cases hex : ∃ vj ∈ ((a.outputReps t.gen).map V).zipIdx,
        u32 (t.slot .write vj.2) = t'.slot .write j
    · exact Scatter.scatter_of_forall_eq witness hex hsame
    · push Not at hex
      rw [Scatter.scatter_of_forall_ne witness hex]
      rcases List.mem_cons.mp ht' with rfl | ht'
      · refine absurd ?_ (hex (V r, j) (List.mk_mem_zipIdx_iff_getElem?.mpr (by simp [hj])))
        exact hp.u32_slot ht (k := .write) hlt
      · exact hw.output t' ht' j r hj

/-- The threads of a layer, in any order. -/
lemma holds_foldl_runThread (hp : p.Executable a all) {runOnce : ℕ → List F → List F}
    {inputs : List F} {V : ℕ → F} (hV : Consistent a runOnce inputs V)
    {kernel : String → (ℕ → ℕ) → (ℕ → F) → List F} (hkernel : KernelsCompute a runOnce kernel)
    (ts : List Thread) (hts : ts ⊆ threads all) {done : List Thread} (hdone : done ⊆ threads all)
    (hwatch : ∀ t ∈ ts, ∀ r ∈ a.watchReps t.gen, OwnedBy a p.writeMap done r) {witness : ℕ → F}
    (hw : Holds a V done witness) :
    Holds a V (ts ++ done) (ts.foldl (p.runThread kernel) witness) := by
  induction ts generalizing done witness with
  | nil => exact hw
  | cons t ts ih =>
    have hstep := hp.holds_runThread hV hkernel hdone hw (hts (by simp)) (hwatch t (by simp))
    have hrest := ih (fun t' ht' => hts (by simp [ht']))
      (List.cons_subset.mpr ⟨hts (by simp), hdone⟩)
      (fun t' ht' r hr => (hwatch t' (by simp [ht']) r hr).mono (List.subset_cons_self _ _)) hstep
    refine ⟨hrest.input, fun t' ht' => hrest.output t' ?_⟩
    simp only [List.cons_append, List.mem_cons, List.mem_append] at ht' ⊢
    tauto

end WitnessPlan.Executable

/-! ### Layers -/

/-- Every dependency of a thread has its slot in an earlier layer, or is an input. -/
def WitnessPlan.ReadsEarlier (a : BuildArgs) (p : WitnessPlan) : Prop :=
  ∀ pre layer post, p.layers = pre ++ layer :: post → ∀ t ∈ threads layer,
    ∀ r ∈ a.watchReps t.gen, OwnedBy a p.writeMap (threads pre.flatten) r

lemma WitnessPlan.Executable.holds_replay {p : WitnessPlan}
    (hp : p.Executable a p.layers.flatten) (hearlier : p.ReadsEarlier a)
    {runOnce : ℕ → List F → List F} {inputs : List F} {V : ℕ → F}
    (hV : Consistent a runOnce inputs V) {kernel : String → (ℕ → ℕ) → (ℕ → F) → List F}
    (hkernel : KernelsCompute a runOnce kernel) (order : ThreadOrder) {witness : ℕ → F}
    (hw : Holds a V [] witness) :
    Holds a V (threads p.layers.flatten) (p.replay kernel order witness) := by
  suffices key : ∀ post pre w, p.layers = pre ++ post → Holds a V (threads pre.flatten) w →
      Holds a V (threads p.layers.flatten) (post.foldl
        (fun w layer => (order.order (threads layer)).foldl (p.runThread kernel) w) w) by
    exact key p.layers [] witness rfl hw
  intro post
  induction post with
  | nil =>
    intro pre w hsplit hw
    rw [hsplit, List.append_nil]
    exact hw
  | cons layer post ih =>
    intro pre w hsplit hw
    have hsub : ∀ t, t ∈ threads (pre ++ [layer]).flatten → t ∈ threads p.layers.flatten := by
      intro t ht
      rw [hsplit]
      rw [mem_threads] at ht ⊢
      refine ⟨?_, ht.2⟩
      have := ht.1
      simp only [List.flatten_append, List.flatten_cons, List.flatten_nil, List.append_nil,
        List.mem_append] at this ⊢
      tauto
    have hlayer : ∀ t, t ∈ threads (pre ++ [layer]).flatten ↔
        t ∈ order.order (threads layer) ++ threads pre.flatten := by
      intro t
      rw [List.mem_append, (order.perm _).mem_iff, mem_threads, mem_threads, mem_threads]
      simp only [List.flatten_append, List.flatten_cons, List.flatten_nil, List.append_nil,
        List.mem_append]
      tauto
    have hstep := hp.holds_foldl_runThread hV hkernel (order.order (threads layer))
      (fun t ht => hsub t ((hlayer t).mpr (List.mem_append_left _ ht)))
      (show threads pre.flatten ⊆ threads p.layers.flatten from
        fun t ht => hsub t ((hlayer t).mpr (List.mem_append_right _ ht)))
      (fun t ht => hearlier pre layer post hsplit t ((order.perm _).mem_iff.mp ht)) hw
    refine ih (pre ++ [layer]) _ (by simp [hsplit]) ⟨hstep.input, fun t ht => ?_⟩
    exact hstep.output t ((hlayer t).mp ht)

lemma WitnessPlan.Follows.mem {s : Schedule} {layers : List (List KernelBatch)}
    (h : WitnessPlan.Follows s layers) {b : KernelBatch} (hb : b ∈ layers.flatten) :
    (b.type, b.gens) ∈ (s.layer b.layer).toList ∧
      ∃ layer, layers[b.layer]? = some layer ∧ b ∈ layer := by
  obtain ⟨layer, hlayer, hb⟩ := List.mem_flatten.mp hb
  obtain ⟨l, hl, rfl⟩ := List.getElem_of_mem hlayer
  have hget : layers[l]? = some layers[l] := List.getElem?_eq_getElem hl
  rw [h.layer l _ hget b hb]
  refine ⟨?_, _, hget, hb⟩
  rw [← h.getElem? hget]
  exact List.mem_map_of_mem hb

/-- What `build` uploads can be executed, and a representative has a slot exactly when it gets
a value. -/
lemma BuildArgs.plan_executable {s : Schedule} (hsched : s.Runnable a) (hfits : s.Fits a)
    {p : WitnessPlan} (hp : a.plan s = .ok p) :
    p.Executable a p.layers.flatten ∧ p.ReadsEarlier a ∧
      ∀ r, if a.Populated r then OwnedBy a p.writeMap (threads p.layers.flatten) r ∧
        p.writeMap r ≠ u32Max else p.writeMap r = u32Max := by
  obtain ⟨hlen, hfollows, st, hplanned, hlimit, hwrite, hread, hparams⟩ :=
    a.plan_spec hsched hfits hp
  obtain ⟨hlaid, hmapped, -⟩ := hplanned
  have hmem : ∀ t ∈ threads p.layers.flatten,
      (t.batch.type, t.batch.gens) ∈ (s.layer t.batch.layer).toList := fun t ht =>
    (hfollows.mem (mem_threads.mp ht).1).1
  have howned : ∀ t ∈ threads p.layers.flatten, ∀ r ∈ a.outputReps t.gen,
      r ∉ a.inputReps → ∃ t' ∈ threads p.layers.flatten, t'.batch.layer ≤ t.batch.layer ∧
        ∃ j, (a.outputReps t'.gen)[j]? = some r ∧ p.writeMap r = t'.slot .write j := by
    rw [← hwrite]
    exact hmapped.output
  refine ⟨⟨⟨st.start, hlimit, hlaid⟩, ?_, ?_, ?_, ?_⟩, ?_, ?_⟩
  · exact fun t ht => hsched.lt _ _ (hmem t ht) _ (hlaid.gen_mem ht)
  · exact fun t ht => (hsched.type _ _ (hmem t ht) _ (hlaid.gen_mem ht)).symm
  · intro t ht j r hj
    rw [← hread, ← hwrite]
    exact (hmapped.read t ht j r hj).2
  · rw [← hparams]
    exact hmapped.param
  · intro pre layer post hsplit t ht r hr
    have hget : p.layers[pre.length]? = some layer := by
      rw [hsplit, List.getElem?_append_right (le_refl _), Nat.sub_self]
      rfl
    obtain ⟨hb, htid⟩ := mem_threads.mp ht
    have hl : t.batch.layer = pre.length := hfollows.layer _ _ hget _ hb
    have hall : t ∈ threads p.layers.flatten := mem_threads.mpr
      ⟨List.mem_flatten.mpr ⟨layer, List.mem_of_getElem? hget, hb⟩, htid⟩
    by_cases hin : r ∈ a.inputReps
    · rw [← hwrite]
      exact .inl (hmapped.input r hin)
    obtain ⟨l', hl', b', hb', g, hg, hout⟩ :=
      (hsched.watch _ _ (hmem t hall) _ (hlaid.gen_mem hall) r hr).resolve_left hin
    have hlt : pre.length < p.layers.length := by simp [hsplit]
    obtain ⟨t₀, ht₀, hlayer₀, rfl⟩ := hfollows.exists_thread hlaid (by omega) hb' hg
    obtain ⟨t', ht', hle, hj⟩ := howned t₀ ht₀ r hout hin
    refine .inr ⟨t', mem_threads.mpr ⟨?_, (mem_threads.mp ht').2⟩, hj⟩
    -- the owner stands in a layer before this one
    obtain ⟨-, layer', hget', hb'⟩ := hfollows.mem (mem_threads.mp ht').1
    rw [hsplit, List.getElem?_append_left (by omega)] at hget'
    exact List.mem_flatten.mpr ⟨layer', List.mem_of_getElem? hget', hb'⟩
  · intro r
    have hpop : a.Populated r ↔ r ∈ a.inputReps ∨
        ∃ t ∈ threads p.layers.flatten, r ∈ a.outputReps t.gen := by
      refine or_congr Iff.rfl ⟨?_, ?_⟩
      · rintro ⟨g, hg, hr⟩
        obtain ⟨l, hl, b, hb, hgb⟩ := hsched.placed g hg
        obtain ⟨t, ht, -, rfl⟩ := hfollows.exists_thread hlaid (by omega) hb hgb
        exact ⟨t, ht, hr⟩
      · rintro ⟨t, ht, hr⟩
        exact ⟨t.gen, hsched.lt _ _ (hmem t ht) _ (hlaid.gen_mem ht), hr⟩
    have hset := hmapped.set r
    rw [hwrite, ← hpop] at hset
    by_cases hr : a.Populated r
    · rw [if_pos hr]
      refine ⟨?_, hset.mpr hr⟩
      by_cases hin : r ∈ a.inputReps
      · rw [← hwrite]
        exact .inl (hmapped.input r hin)
      · obtain ⟨t, ht, hrt⟩ := (hpop.mp hr).resolve_left hin
        obtain ⟨t', ht', -, hj⟩ := howned t ht r hrt hin
        exact .inr ⟨t', ht', hj⟩
    · rw [if_neg hr]
      by_contra hne
      exact hr (hset.mp hne)

end MegaZK
