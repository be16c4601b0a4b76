import MegaZK.Witgen.Generator

/-! # Witness generation on the host

The worklist of `generate_partial_witness`, and what it computes when the generators and the
inputs agree on one value for every representative. -/

namespace MegaZK

variable {F : Type*} [DecidableEq F] [Zero F]

/-- The partition witness and the bookkeeping of the worklist. -/
structure HostState (F : Type*) where
  values : ℕ → Option F
  expired : ℕ → Bool
  remaining : ℕ
  next : List ℕ

namespace HostState

variable (a : BuildArgs) (runOnce : ℕ → List F → List F)

/-- `set_target_returning_rep`. -/
def setTargetReturningRep (values : ℕ → Option F) (rep : ℕ) (value : F) :
    Except String ((ℕ → Option F) × Option ℕ) :=
  match values rep with
  | some old =>
    if value = old then .ok (values, none)
    else .error "Partition was set twice with different values"
  | none => .ok (Function.update values rep (some value), some rep)

/-- Merge one generated value, and queue the unfinished watchers of a new representative. -/
def merge (s : HostState F) (out : ℕ × F) : Except String (HostState F) :=
  match setTargetReturningRep s.values out.1 out.2 with
  | .error e => .error e
  | .ok (values, none) => .ok { s with values := values }
  | .ok (values, some watch) => .ok
    { s with
      values := values
      next := s.next ++ (a.generatorIndicesByWatches watch).filter fun w => ! s.expired w }

/-- One pending generator: it runs once, when all its dependencies are present. -/
def runGenerator (s : HostState F) (g : ℕ) : Except String (HostState F) :=
  if s.expired g then .ok s
  else if (a.watchReps g).all fun r => (s.values r).isSome then
    let buffer := (a.outputReps g).zip
      (runOnce g ((a.watchReps g).map fun r => (s.values r).getD 0))
    buffer.foldlM (merge a)
      { s with expired := Function.update s.expired g true, remaining := s.remaining - 1 }
  else .ok s

/-- Rounds over the pending generators until none is queued. -/
def rounds : ℕ → List ℕ → HostState F → Except String (HostState F)
  | 0, pending, s => if pending = [] then .ok s else .error "out of fuel"
  | fuel + 1, pending, s =>
    if pending = [] then .ok s
    else
      match pending.foldlM (runGenerator a runOnce) { s with next := [] } with
      | .error e => .error e
      | .ok s' => rounds fuel s'.next s'

/-- Set the inputs, in the order the map of the partial witness yields them. -/
def setInputs (inputs : List (Target × F)) : Except String (ℕ → Option F) :=
  inputs.foldlM (fun values tv => (setTargetReturningRep values (a.rep tv.1) tv.2).map Prod.fst)
    fun _ => none

/-- `generate_partial_witness`. A round queues generators only after one has finished, so
`n + 1` rounds are enough. -/
def generatePartialWitness (inputs : List (Target × F)) : Except String (ℕ → Option F) :=
  match setInputs a inputs with
  | .error e => .error e
  | .ok values =>
    match rounds a runOnce (a.n + 1) (List.range a.n)
        ⟨values, fun _ => false, a.n, []⟩ with
    | .error e => .error e
    | .ok s =>
      if s.remaining = 0 then .ok s.values
      else .error s!"{s.remaining} generators weren't run"

/-- `full_witness`: the value of a wire, zero where no value was set. -/
def fullWitness (values : ℕ → Option F) (row column : ℕ) : F :=
  (values (a.rep (.wire row column))).getD 0

end HostState

/-- One value for every representative, on which the inputs and all generators agree. -/
structure Consistent (a : BuildArgs) (runOnce : ℕ → List F → List F) (inputs : List F)
    (V : ℕ → F) : Prop where
  length : inputs.length = a.inputTargets.length
  input : ∀ tv ∈ a.inputTargets.zip inputs, tv.2 = V (a.rep tv.1)
  output : ∀ g < a.n, runOnce g ((a.watchReps g).map V) = (a.outputReps g).map V

/-- The representatives that get a value. -/
def BuildArgs.Populated (a : BuildArgs) (r : ℕ) : Prop :=
  r ∈ a.inputReps ∨ ∃ g < a.n, r ∈ a.outputReps g

instance (a : BuildArgs) (r : ℕ) : Decidable (a.Populated r) :=
  inferInstanceAs (Decidable (_ ∨ ∃ g < a.n, _))

namespace HostState

variable {a : BuildArgs} {runOnce : ℕ → List F → List F} {V : ℕ → F}

/-! ### Merging values -/

omit [Zero F] in
lemma setTargetReturningRep_eq {values : ℕ → Option F} {r : ℕ}
    (hval : ∀ x, values r = some x → x = V r) :
    setTargetReturningRep values r (V r) =
      .ok (Function.update values r (some (V r)), if values r = none then some r else none) := by
  unfold setTargetReturningRep
  cases hr : values r with
  | none => rfl
  | some x =>
    obtain rfl := hval x hr
    have hsame : Function.update values r (some (V r)) = values := by
      rw [← hr, Function.update_eq_self]
    simp [hsame]

omit [DecidableEq F] [Zero F] in
private lemma zip_map_self (V : ℕ → F) (rs : List ℕ) :
    rs.zip (rs.map V) = rs.map fun r => (r, V r) := by
  induction rs with
  | nil => rfl
  | cons r rs ih => simp [ih]

omit [Zero F] in
lemma foldlM_merge (rs : List ℕ) {s : HostState F} (hval : ∀ r x, s.values r = some x → x = V r) :
    ∃ s', (rs.map fun r => (r, V r)).foldlM (merge a) s = .ok s' ∧
      (s'.values = fun r => if r ∈ rs then some (V r) else s.values r) ∧
      s'.expired = s.expired ∧ s'.remaining = s.remaining ∧ s.next ⊆ s'.next ∧
      ((∀ w ∈ s.next, w < a.n) → ∀ w ∈ s'.next, w < a.n) ∧
      ∀ r ∈ rs, s.values r = none → ∀ w ∈ a.generatorIndicesByWatches r,
        s.expired w = false → w ∈ s'.next := by
  induction rs generalizing s with
  | nil => exact ⟨s, rfl, by simp, rfl, rfl, fun _ h => h, fun h => h, by simp⟩
  | cons r rs ih =>
    -- the state after the first value; its representative may be new or not
    let s₁ : HostState F :=
      { s with
        values := Function.update s.values r (some (V r))
        next := s.next ++ if s.values r = none then
          (a.generatorIndicesByWatches r).filter fun w => ! s.expired w else [] }
    have hstep : merge a s (r, V r) = .ok s₁ := by
      simp only [merge, setTargetReturningRep_eq (hval r), s₁]
      cases hr : s.values r <;> simp
    have hval₁ : ∀ r' x, s₁.values r' = some x → x = V r' := by
      intro r' x hx
      by_cases hr' : r' = r
      · subst hr'
        simpa [s₁] using hx.symm
      · simp only [s₁, Function.update_of_ne hr'] at hx
        exact hval r' x hx
    obtain ⟨s', hfold, hvalues, hexp, hrem, hnext, hbound, hwatch⟩ := ih hval₁
    refine ⟨s', ?_, ?_, hexp, hrem, ?_, ?_, ?_⟩
    · rw [List.map_cons, List.foldlM_cons, hstep]
      exact hfold
    · rw [hvalues]
      funext r'
      by_cases hr' : r' = r
      · subst hr'; simp [s₁]
      · simp [s₁, hr']
    · exact fun w hw => hnext (List.mem_append_left _ hw)
    · intro hlt
      refine hbound fun w hw => ?_
      rcases List.mem_append.mp hw with hw | hw
      · exact hlt w hw
      · split_ifs at hw
        · exact (a.mem_generatorIndicesByWatches.mp (List.mem_filter.mp hw).1).1
        · simp at hw
    · intro r' hr' hnone w hw hwexp
      by_cases hrr : r' = r
      · subst hrr
        apply hnext
        simp only [s₁, hnone, ↓reduceIte, List.mem_append, List.mem_filter]
        exact .inr ⟨hw, by simp [hwexp]⟩
      · have hmem : r' ∈ rs := (List.mem_cons.mp hr').resolve_left hrr
        exact hwatch r' hmem (by simpa [s₁, hrr] using hnone) w hw hwexp

/-! ### The worklist -/

/-- The invariant of the worklist, with `rest` still to visit in this round: an unfinished
generator is queued, or waits for a value. -/
structure Inv (a : BuildArgs) (V : ℕ → F) (rest : List ℕ) (s : HostState F) : Prop where
  val : ∀ r x, s.values r = some x → x = V r
  isSome : ∀ r, (s.values r).isSome ↔
    r ∈ a.inputReps ∨ ∃ g < a.n, s.expired g ∧ r ∈ a.outputReps g
  pending : ∀ g < a.n, s.expired g = false →
    g ∈ rest ∨ g ∈ s.next ∨ ∃ r ∈ a.watchReps g, s.values r = none
  remaining : s.remaining = ((List.range a.n).filter fun g => ! s.expired g).length
  ready : ∀ g < a.n, s.expired g = true → a.Ready g

/-- Expiring a generator leaves one less. -/
private lemma length_unexpired_update {expired : ℕ → Bool} {g : ℕ} (hg : g < a.n)
    (hexp : expired g = false) :
    ((List.range a.n).filter fun g' => ! Function.update expired g true g').length =
      ((List.range a.n).filter fun g' => ! expired g').length - 1 := by
  have hsplit : ((List.range a.n).filter fun g' => ! Function.update expired g true g') =
      ((List.range a.n).filter fun g' => ! expired g').erase g := by
    rw [(List.nodup_range.filter _).erase_eq_filter, List.filter_filter]
    apply List.filter_congr
    intro g' _
    by_cases hgg : g' = g
    · subst hgg; simp
    · simp [hgg]
  rw [hsplit, List.length_erase_of_mem (by simp [hg, hexp])]

lemma Inv.runGenerator {inputs : List F} (hV : Consistent a runOnce inputs V) {g : ℕ}
    (hg : g < a.n) {rest : List ℕ} {s : HostState F} (hs : Inv a V (g :: rest) s)
    (hqueued : ∀ w ∈ s.next, w < a.n) :
    ∃ s', HostState.runGenerator a runOnce s g = .ok s' ∧ Inv a V rest s' ∧
      (∀ w ∈ s'.next, w < a.n) ∧ (s' = s ∨ s'.remaining < s.remaining) ∧ s'.remaining ≤ s.remaining := by
  unfold HostState.runGenerator
  by_cases hexp : s.expired g = true
  · rw [if_pos hexp]
    refine ⟨s, rfl, ⟨hs.val, hs.isSome, ?_, hs.remaining, hs.ready⟩, hqueued, .inl rfl, le_refl _⟩
    intro g' hg' hexp'
    have hne : g' ≠ g := by
      rintro rfl
      rw [hexp] at hexp'
      cases hexp'
    simpa [hne] using hs.pending g' hg' hexp'
  have hexp' : s.expired g = false := by simpa using hexp
  rw [if_neg hexp]
  by_cases hall : (a.watchReps g).all fun r => (s.values r).isSome
  · rw [if_pos hall]
    rw [List.all_eq_true] at hall
    have hreads : ((a.watchReps g).map fun r => (s.values r).getD 0) = (a.watchReps g).map V := by
      apply List.map_congr_left
      intro r hr
      obtain ⟨x, hx⟩ := Option.isSome_iff_exists.mp (hall r hr)
      rw [hx, Option.getD_some, hs.val r x hx]
    have hbuffer : (a.outputReps g).zip (runOnce g ((a.watchReps g).map V)) =
        (a.outputReps g).map fun r => (r, V r) := by
      rw [hV.output g hg, zip_map_self]
    rw [hreads]
    simp only [hbuffer]
    obtain ⟨s', hfold, hvalues, hexpired, hremaining, hnext, hbound, hwatch⟩ :=
      foldlM_merge (a := a) (a.outputReps g) (s :=
        { s with expired := Function.update s.expired g true, remaining := s.remaining - 1 }) hs.val
    have hpos : 0 < s.remaining := by
      rw [hs.remaining]
      exact List.length_pos_of_mem (List.mem_filter.mpr ⟨List.mem_range.mpr hg, by simp [hexp']⟩)
    have hlt : s'.remaining < s.remaining := by
      rw [hremaining]
      simp only
      omega
    refine ⟨s', hfold, ⟨?_, ?_, ?_, ?_, ?_⟩, hbound hqueued, .inr hlt, hlt.le⟩
    · intro r x hx
      rw [hvalues] at hx
      simp only at hx
      split_ifs at hx with hr
      · exact (Option.some.inj hx).symm
      · exact hs.val r x hx
    · intro r
      rw [hvalues, hexpired]
      simp only
      by_cases hr : r ∈ a.outputReps g
      · simp only [hr, ↓reduceIte, Option.isSome_some, true_iff]
        exact .inr ⟨g, hg, by simp, hr⟩
      · rw [if_neg hr, hs.isSome r]
        refine or_congr Iff.rfl (exists_congr fun g' => and_congr_right fun _ => ?_)
        by_cases hgg : g' = g
        · subst hgg; simp [hr]
        · simp [hgg]
    · intro g' hg' hexpg'
      rw [hexpired] at hexpg'
      simp only at hexpg'
      have hne : g' ≠ g := by
        rintro rfl
        simp at hexpg'
      rw [Function.update_of_ne hne] at hexpg'
      rcases hs.pending g' hg' hexpg' with hmem | hmem | ⟨r, hr, hnone⟩
      · exact .inl ((List.mem_cons.mp hmem).resolve_left hne)
      · exact .inr (.inl (hnext hmem))
      · -- the missing value may have arrived just now; then `g'` was queued as a watcher
        by_cases hout : r ∈ a.outputReps g
        · refine .inr (.inl (hwatch r hout hnone g' ?_ ?_))
          · exact a.mem_generatorIndicesByWatches.mpr ⟨hg', hr⟩
          · simpa [hne] using hexpg'
        · refine .inr (.inr ⟨r, hr, ?_⟩)
          rw [hvalues]
          simpa [hout] using hnone
    · rw [hremaining, hexpired, length_unexpired_update hg hexp', ← hs.remaining]
    · intro g' hg' hexpg'
      by_cases hgg : g' = g
      · subst hgg
        refine .of_watched fun r hr => ?_
        exact ((hs.isSome r).mp (hall r hr)).imp_right
          fun ⟨p, hp, hexpp, hout⟩ => ⟨p, hp, hs.ready p hp hexpp, hout⟩
      · refine hs.ready g' hg' ?_
        rw [hexpired] at hexpg'
        simpa [hgg] using hexpg'
  · rw [if_neg hall]
    refine ⟨s, rfl, ⟨hs.val, hs.isSome, ?_, hs.remaining, hs.ready⟩, hqueued, .inl rfl, le_refl _⟩
    intro g' hg' hexp'
    by_cases hgg : g' = g
    · subst hgg
      simp only [List.all_eq_true, not_forall] at hall
      obtain ⟨r, hr, hnone⟩ := hall
      exact .inr (.inr ⟨r, hr, by simpa using hnone⟩)
    · simpa [hgg] using hs.pending g' hg' hexp'

/-- A round visits all pending generators. Whatever it queues, it queued after a generator
finished. -/
lemma Inv.foldlM_runGenerator {inputs : List F} (hV : Consistent a runOnce inputs V)
    (pending : List ℕ) (hlt : ∀ g ∈ pending, g < a.n) {s : HostState F} (hs : Inv a V pending s)
    (hnext : ∀ g ∈ s.next, g < a.n) :
    ∃ s', pending.foldlM (HostState.runGenerator a runOnce) s = .ok s' ∧ Inv a V [] s' ∧
      (∀ g ∈ s'.next, g < a.n) ∧
      (s' = s ∨ s'.remaining < s.remaining) ∧ s'.remaining ≤ s.remaining := by
  induction pending generalizing s with
  | nil => exact ⟨s, rfl, hs, hnext, .inl rfl, le_refl _⟩
  | cons g pending ih =>
    obtain ⟨s₁, hrun, hs₁, hnext₁, hor₁, hle₁⟩ := hs.runGenerator hV (hlt g (by simp)) hnext
    obtain ⟨s', hfold, hs', hnext', hor, hle⟩ :=
      ih (fun g' hg' => hlt g' (by simp [hg'])) hs₁ hnext₁
    refine ⟨s', ?_, hs', hnext', ?_, le_trans hle hle₁⟩
    · rw [List.foldlM_cons, hrun]
      exact hfold
    · rcases hor with rfl | hlt'
      · exact hor₁
      · exact .inr (lt_of_lt_of_le hlt' hle₁)

/-- The rounds end with nothing queued. -/
lemma Inv.rounds {inputs : List F} (hV : Consistent a runOnce inputs V) (fuel : ℕ)
    {pending : List ℕ} (hlt : ∀ g ∈ pending, g < a.n) {s : HostState F}
    (hs : Inv a V pending { s with next := [] }) (hfuel : s.remaining < fuel) :
    ∃ s', HostState.rounds a runOnce fuel pending s = .ok s' ∧
      Inv a V [] { s' with next := [] } := by
  induction fuel generalizing pending s with
  | zero => omega
  | succ fuel ih =>
    by_cases hnil : pending = []
    · subst hnil
      exact ⟨s, by simp [HostState.rounds], hs⟩
    obtain ⟨s', hfold, hs', hnext, hor, hle⟩ :=
      hs.foldlM_runGenerator hV pending hlt (by simp)
    simp only [HostState.rounds, hnil, ↓reduceIte, hfold]
    have hs'' : Inv a V s'.next { s' with next := [] } :=
      ⟨hs'.val, hs'.isSome, fun g hg hexp => by simpa using hs'.pending g hg hexp,
        hs'.remaining, hs'.ready⟩
    rcases hor with rfl | hrem
    · -- nothing finished, so nothing was queued
      refine ⟨{ s with next := [] }, ?_, hs''⟩
      cases fuel <;> simp [HostState.rounds]
    · exact ih hnext hs'' (by simp only at hrem; omega)

/-! ### The inputs -/

omit [Zero F] in
lemma foldlM_setTarget {inputs : List (Target × F)} (hin : ∀ tv ∈ inputs, tv.2 = V (a.rep tv.1))
    {values : ℕ → Option F} (hval : ∀ r x, values r = some x → x = V r) :
    inputs.foldlM (fun values tv =>
        (setTargetReturningRep values (a.rep tv.1) tv.2).map Prod.fst) values =
      .ok fun r => if r ∈ inputs.map (a.rep ·.1) then some (V r) else values r := by
  induction inputs generalizing values with
  | nil => simp [pure, Except.pure]
  | cons tv inputs ih =>
    have htv := hin tv (by simp)
    have hval' : ∀ r x, Function.update values (a.rep tv.1) (some (V (a.rep tv.1))) r = some x →
        x = V r := by
      intro r x hx
      by_cases hr : r = a.rep tv.1
      · subst hr
        simpa using hx.symm
      · rw [Function.update_of_ne hr] at hx
        exact hval r x hx
    rw [List.foldlM_cons, htv, setTargetReturningRep_eq (hval _)]
    refine (ih (fun tv' h => hin tv' (by simp [h])) hval').trans ?_
    congr 1
    funext r
    by_cases hr : r = a.rep tv.1
    · subst hr; simp
    · simp only [Function.update_of_ne hr, List.map_cons, List.mem_cons, hr, false_or]

omit [DecidableEq F] [Zero F] in
/-- No generator waits for ever: one that does waits for a value of an unfinished generator. -/
lemma Inv.expired_of_ready {s : HostState F} (hs : Inv a V [] s) (hnext : s.next = []) {g : ℕ}
    (hready : a.Ready g) : g < a.n → s.expired g = true := by
  induction hready with
  | intro i producer produced earlier ih =>
    intro hi
    by_contra hexp
    rw [Bool.not_eq_true] at hexp
    rcases hs.pending i hi hexp with hmem | hmem | ⟨r, hr, hnone⟩
    · simp at hmem
    · simp [hnext] at hmem
    · have hsome : ¬ (s.values r).isSome := by simp [hnone]
      rw [hs.isSome r, not_or] at hsome
      obtain ⟨hp, hout⟩ := produced r hr hsome.1
      exact hsome.2 ⟨producer r, hp, ih r hr hsome.1 hp, hout⟩

end HostState

/-- When the generators agree on their values the worklist ends, having finished every generator
that becomes ready and no other. -/
lemma HostState.exists_rounds {a : BuildArgs} {runOnce : ℕ → List F → List F} {V : ℕ → F}
    {inputs : List F} (hV : Consistent a runOnce inputs V) {assignment : List (Target × F)}
    (hperm : assignment.Perm (a.inputTargets.zip inputs)) :
    ∃ s : HostState F, generatePartialWitness a runOnce assignment =
        (if s.remaining = 0 then .ok s.values
        else .error s!"{s.remaining} generators weren't run") ∧
      Inv a V [] { s with next := [] } ∧ ∀ g < a.n, s.expired g = true ↔ a.Ready g := by
  have hset : setInputs a assignment =
      .ok fun r => if r ∈ a.inputReps then some (V r) else none := by
    rw [setInputs, foldlM_setTarget (fun tv htv => hV.input tv (hperm.mem_iff.mp htv)) (by simp)]
    congr 1
    funext r
    have hmem : r ∈ assignment.map (a.rep ·.1) ↔ r ∈ a.inputReps := by
      have hfst : (a.inputTargets.zip inputs).map Prod.fst = a.inputTargets :=
        List.map_fst_zip hV.length.ge
      rw [(hperm.map _).mem_iff, BuildArgs.inputReps]
      conv_rhs => rw [← hfst, List.map_map]
      rfl
    simp only [hmem]
  have hinit : Inv a V (List.range a.n)
      ⟨fun r => if r ∈ a.inputReps then some (V r) else none, fun _ => false, a.n, []⟩ := by
    refine ⟨?_, ?_, ?_, by simp, by simp⟩
    · intro r x hx
      simp only at hx
      split_ifs at hx
      exact (Option.some.inj hx).symm
    · intro r
      by_cases hr : r ∈ a.inputReps <;> simp [hr]
    · intro g hg _
      exact .inl (List.mem_range.mpr hg)
  obtain ⟨s, hrounds, hs⟩ := Inv.rounds hV (a.n + 1) (fun g hg => List.mem_range.mp hg)
    (s := ⟨fun r => if r ∈ a.inputReps then some (V r) else none, fun _ => false, a.n, []⟩)
    hinit (Nat.lt_succ_self _)
  refine ⟨s, ?_, hs, fun g hg => ⟨hs.ready g hg, fun h => hs.expired_of_ready rfl h hg⟩⟩
  simp only [generatePartialWitness, hset, hrounds]

/-- When all generators become ready and agree on their values, the host fills exactly the
representatives of the inputs and outputs, whatever the order of the inputs. -/
lemma HostState.generatePartialWitness_eq {a : BuildArgs} {runOnce : ℕ → List F → List F}
    {V : ℕ → F} {inputs : List F} (hready : a.AllReady) (hV : Consistent a runOnce inputs V)
    {assignment : List (Target × F)} (hperm : assignment.Perm (a.inputTargets.zip inputs)) :
    generatePartialWitness a runOnce assignment =
      .ok fun r => if a.Populated r then some (V r) else none := by
  obtain ⟨s, hrun, hs, hexpired⟩ := exists_rounds hV hperm
  have hexp : ∀ g < a.n, s.expired g = true := fun g hg => (hexpired g hg).mpr (hready g hg)
  have hrem : s.remaining = 0 := by
    have := hs.remaining
    simp only at this
    rw [this, List.length_eq_zero_iff, List.filter_eq_nil_iff]
    intro g hg
    simp [hexp g (List.mem_range.mp hg)]
  rw [hrun, if_pos hrem]
  congr 1
  funext r
  have hsome : (s.values r).isSome ↔ a.Populated r := by
    rw [hs.isSome r, BuildArgs.Populated]
    refine or_congr Iff.rfl (exists_congr fun g => and_congr_right fun hg => ?_)
    simp [hexp g hg]
  by_cases hr : a.Populated r
  · obtain ⟨x, hx⟩ := Option.isSome_iff_exists.mp (hsome.mpr hr)
    rw [if_pos hr, hx, hs.val r x hx]
  · rw [if_neg hr, ← Option.not_isSome_iff_eq_none, hsome]
    exact hr

end MegaZK
