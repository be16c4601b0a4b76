import MegaZK.Witgen.PlanLayout

/-! # What a plan maps

The write map sends a representative to the slot of an output that populates it, and the read
map holds the slots of what the threads watch. Both are invariants of the loops of `build`. -/

namespace MegaZK

variable {a : BuildArgs}

/-- The maps after the generators of the threads `done` were visited. -/
structure Mapped (a : BuildArgs) (done : List Thread) (s : PlanState) : Prop where
  input : ∀ r ∈ a.inputReps, ∃ k, a.inputReps[k]? = some r ∧ s.writeMap r = k
  output : ∀ t ∈ done, ∀ r ∈ a.outputReps t.gen, r ∉ a.inputReps →
    ∃ t' ∈ done, t'.batch.layer ≤ t.batch.layer ∧
      ∃ j, (a.outputReps t'.gen)[j]? = some r ∧ s.writeMap r = t'.slot .write j
  set : ∀ r, s.writeMap r ≠ u32Max ↔ r ∈ a.inputReps ∨ ∃ t ∈ done, r ∈ a.outputReps t.gen
  read : ∀ t ∈ done, ∀ j r, (a.watchReps t.gen)[j]? = some r →
    s.writeMap r ≠ u32Max ∧ s.readMap (t.slot .read j) = s.writeMap r
  param : ∀ t ∈ done, ∀ j x, (a.generator t.gen).params[j]? = some x →
    s.params (t.slot .params j) = x

/-- Where the next batch starts. -/
def PlanState.start (s : PlanState) : Region → ℕ
  | .write => s.writeStart
  | .read => s.readStart
  | .params => s.paramStart

private lemma length_of_getElem? {α : Type*} {l : List α} {j : ℕ} {x : α} (h : l[j]? = some x) :
    j < l.length := (List.getElem?_eq_some_iff.mp h).1

/-- Visiting one generator. -/
lemma Mapped.planGenerator {done : List Thread} {s s' : PlanState} (hs : Mapped a done s)
    {t : Thread} (hstart : ∀ k, t.batch.start k = s.start k)
    (hfit : ∀ j < a.items .write t.gen, t.slot .write j < u32Max)
    (hlayer : ∀ t' ∈ done, t'.batch.layer ≤ t.batch.layer)
    (hinj : ∀ k, ∀ j < a.items k t.gen, ∀ j' < a.items k t.gen,
      t.slot k j = t.slot k j' → j = j')
    (hsep : ∀ t' ∈ done, ∀ k, ∀ j < a.items k t.gen, ∀ j' < a.items k t'.gen,
      t.slot k j ≠ t'.slot k j')
    (hwatch : ∀ r ∈ a.watchReps t.gen, r ∈ a.inputReps ∨ ∃ t' ∈ done, r ∈ a.outputReps t'.gen)
    (hrun : a.planGenerator t.batch.len s (t.gen, t.tid) = .ok s') :
    Mapped a (done ++ [t]) s' ∧ ∀ k, s'.start k = s.start k := by
  -- the three maps after the visit
  unfold BuildArgs.planGenerator at hrun
  set writeMap := BuildArgs.claimSlots
    (fun j => u32 (s.writeStart + u32 (t.tid + j * t.batch.len))) (a.outputReps t.gen) s.writeMap
    with hwriteMap
  simp only [bind, Except.bind] at hrun
  split at hrun
  · cases hrun
  rename_i readMap hread
  split at hrun
  · cases hrun
  rename_i params hparams
  obtain rfl : { s with writeMap := writeMap, readMap := readMap, params := params } = s' := by
    simpa [pure, Except.pure] using hrun
  have hwrite := fun r => BuildArgs.claimSlots_spec
    (fun j => u32 (s.writeStart + u32 (t.tid + j * t.batch.len))) (a.outputReps t.gen) s.writeMap r
  rw [← hwriteMap] at hwrite
  have hslot : ∀ j < a.items .write t.gen,
      u32 (s.writeStart + u32 (t.tid + j * t.batch.len)) = t.slot .write j := by
    intro j hj
    have hlt := hfit j hj
    have hs₀ : t.batch.start .write = s.writeStart := hstart .write
    unfold Thread.slot at hlt ⊢
    unfold u32Max at hlt
    rw [hs₀] at hlt ⊢
    have hinner : u32 (t.tid + j * t.batch.len) = t.tid + j * t.batch.len := u32_of_lt (by omega)
    rw [hinner, u32_of_lt (by omega), Nat.add_assoc]
  have hreadSlot : ∀ j, s.readStart + t.tid + j * t.batch.len = t.slot .read j := fun j => by
    rw [Thread.slot, hstart .read]
    rfl
  have hparamSlot : ∀ j, s.paramStart + t.tid + j * t.batch.len = t.slot .params j := fun j => by
    rw [Thread.slot, hstart .params]
    rfl
  simp only [hreadSlot] at hread
  simp only [hparamSlot] at hparams
  obtain ⟨hread_old, hread_new⟩ := BuildArgs.storeAll_spec hread
  obtain ⟨hparam_old, hparam_new⟩ := BuildArgs.storeAll_spec hparams
  have hkeep : ∀ r, s.writeMap r ≠ u32Max → writeMap r = s.writeMap r := fun r => (hwrite r).1
  have hset : ∀ r, writeMap r ≠ u32Max ↔ s.writeMap r ≠ u32Max ∨ r ∈ a.outputReps t.gen := by
    intro r
    by_cases hr : s.writeMap r = u32Max
    · by_cases hmem : r ∈ a.outputReps t.gen
      · obtain ⟨j, hj, heq⟩ := (hwrite r).2.2 hr hmem
        have hj' := length_of_getElem? hj
        have := hfit j hj'
        rw [heq, hslot j hj']
        simp only [hmem, or_true, iff_true]
        omega
      · rw [(hwrite r).2.1 hmem]
        simp [hmem]
    · rw [hkeep r hr]
      simp [hr]
  refine ⟨⟨?_, ?_, ?_, ?_, ?_⟩, ?_⟩
  · intro r hr
    obtain ⟨k, hk, heq⟩ := hs.input r hr
    exact ⟨k, hk, (hkeep r ((hs.set r).mpr (.inl hr))).trans heq⟩
  · intro t' ht' r hr hin
    by_cases hold : ∃ t'' ∈ done, r ∈ a.outputReps t''.gen
    · -- the owner found before is still the owner
      have hsetr := (hs.set r).mpr (.inr hold)
      have howner : ∃ t'' ∈ done, r ∈ a.outputReps t''.gen ∧
          t''.batch.layer ≤ t'.batch.layer := by
        rcases List.mem_append.mp ht' with ht' | ht'
        · exact ⟨t', ht', hr, le_refl _⟩
        · obtain rfl := List.mem_singleton.mp ht'
          obtain ⟨t'', ht'', hr''⟩ := hold
          exact ⟨t'', ht'', hr'', hlayer t'' ht''⟩
      obtain ⟨t'', ht'', hr'', hle⟩ := howner
      obtain ⟨o, ho, hol, j, hj, heq⟩ := hs.output t'' ht'' r hr'' hin
      exact ⟨o, List.mem_append_left _ ho, hol.trans hle, j, hj, (hkeep r hsetr).trans heq⟩
    · have hun : s.writeMap r = u32Max := by
        by_contra hne
        exact ((hs.set r).mp hne).elim hin hold
      obtain rfl : t' = t := by
        rcases List.mem_append.mp ht' with ht' | ht'
        · exact absurd ⟨t', ht', hr⟩ hold
        · exact List.mem_singleton.mp ht'
      obtain ⟨j, hj, heq⟩ := (hwrite r).2.2 hun hr
      exact ⟨t', by simp, le_refl _, j, hj, heq.trans (hslot j (length_of_getElem? hj))⟩
  · intro r
    rw [hset, hs.set r, or_assoc]
    refine or_congr Iff.rfl ?_
    simp only [List.mem_append, List.mem_singleton, or_and_right, exists_or, exists_eq_left]
  · intro t' ht' j r hj
    rcases List.mem_append.mp ht' with ht' | ht'
    · obtain ⟨hne, heq⟩ := hs.read t' ht' j r hj
      have hw := hkeep r hne
      refine ⟨fun h => hne (hw.symm.trans h), ?_⟩
      change readMap _ = writeMap r
      rw [hw, ← heq]
      refine hread_old _ fun j' hj' hslots => ?_
      rw [List.length_map] at hj'
      exact hsep t' ht' .read j' hj' j (length_of_getElem? hj) hslots
    · obtain rfl := List.mem_singleton.mp ht'
      have hne : s.writeMap r ≠ u32Max :=
        (hs.set r).mpr (hwatch r (List.mem_of_getElem? hj))
      refine ⟨fun h => hne ((hkeep r hne).symm.trans h),
        hread_new ?_ j _ (by rw [List.getElem?_map, hj]; rfl)⟩
      intro j₁ hj₁ j₂ hj₂ heq
      rw [List.length_map] at hj₁ hj₂
      exact hinj .read j₁ hj₁ j₂ hj₂ heq
  · intro t' ht' j x hj
    rcases List.mem_append.mp ht' with ht' | ht'
    · rw [← hs.param t' ht' j x hj]
      refine hparam_old _ fun j' hj' hslots => ?_
      exact hsep t' ht' .params j' hj' j (length_of_getElem? hj) hslots
    · obtain rfl := List.mem_singleton.mp ht'
      refine hparam_new ?_ j x hj
      intro j₁ hj₁ j₂ hj₂ heq
      exact hinj .params j₁ hj₁ j₂ hj₂ heq
  · intro k
    cases k <;> rfl

/-- Visiting the generators of a batch, the last of those laid out so far. -/
lemma Mapped.foldlM_planGenerator {bs : List KernelBatch} {b : KernelBatch} {limit : Region → ℕ}
    (hlaid : Laid a (bs ++ [b]) limit) (hfit : limit .write < 2 ^ 32) {s s' : PlanState}
    (hs : Mapped a (threads bs) s) (hstart : ∀ k, b.start k = s.start k)
    (hwatch : ∀ g ∈ b.gens, ∀ r ∈ a.watchReps g,
      r ∈ a.inputReps ∨ ∃ t ∈ threads bs, r ∈ a.outputReps t.gen)
    (hrun : b.gens.zipIdx.foldlM (a.planGenerator b.len) s = .ok s') :
    Mapped a (threads (bs ++ [b])) s' ∧ ∀ k, s'.start k = s.start k := by
  have hlen : b.len = b.gens.length := hlaid.len b (by simp)
  have hmem : ∀ i < b.gens.length, (⟨b, i⟩ : Thread) ∈ threads (bs ++ [b]) := fun i hi =>
    mem_threads.mpr ⟨by simp, hlen ▸ hi⟩
  have hlayer : ∀ t ∈ threads bs, t.batch.layer ≤ b.layer := fun t ht =>
    (List.pairwise_append.mp hlaid.layer).2.2 _ (mem_threads.mp ht).1 b (by simp)
  -- with the first `i` generators visited
  suffices key : ∀ post i s, b.gens.drop i = post → i ≤ b.gens.length →
      Mapped a (threads bs ++ (List.range i).map (Thread.mk b)) s →
      (∀ k, b.start k = s.start k) →
      (post.zipIdx i).foldlM (a.planGenerator b.len) s = .ok s' →
      Mapped a (threads bs ++ (List.range b.gens.length).map (Thread.mk b)) s' ∧
        ∀ k, s'.start k = b.start k by
    obtain ⟨hs', hstart'⟩ := key b.gens 0 s rfl (Nat.zero_le _) (by simpa using hs) hstart hrun
    refine ⟨?_, fun k => (hstart' k).trans (hstart k)⟩
    rw [threads_append]
    simpa [threads, hlen] using hs'
  intro post
  induction post with
  | nil =>
    intro i s hdrop hi hs hstart hrun
    obtain rfl : i = b.gens.length := le_antisymm hi (List.drop_eq_nil_iff.mp hdrop)
    cases hrun
    exact ⟨hs, fun k => (hstart k).symm⟩
  | cons g post ih =>
    intro i s hdrop hi hs hstart hrun
    have hlt : i < b.gens.length := by
      by_contra hge
      rw [List.drop_eq_nil_iff.mpr (not_lt.mp hge)] at hdrop
      cases hdrop
    have hg : b.gens.getD i 0 = g := by
      have := List.drop_eq_getElem_cons hlt
      rw [hdrop, List.cons.injEq] at this
      rw [List.getD_eq_getElem _ _ hlt]
      exact this.1.symm
    rw [List.zipIdx_cons, List.foldlM_cons] at hrun
    cases hstep : a.planGenerator b.len s (g, i) with
    | error e =>
      rw [hstep] at hrun
      cases hrun
    | ok s₁ =>
      rw [hstep] at hrun
      have hgen : (⟨b, i⟩ : Thread).gen = g := hg
      obtain ⟨hs₁, hstart₁⟩ := hs.planGenerator (t := ⟨b, i⟩) hstart
        (fun j hj => by
          have := (hlaid.slot_lt (hmem i hlt) hj).2
          unfold u32Max
          omega)
        (by
          intro t' ht'
          rcases List.mem_append.mp ht' with ht' | ht'
          · exact hlayer t' ht'
          · obtain ⟨_, _, rfl⟩ := List.mem_map.mp ht'
            exact le_refl _)
        (fun k j hj j' hj' heq =>
          (hlaid.slot_inj (hmem i hlt) (hmem i hlt) hj hj' heq).2)
        (by
          intro t' ht' k j hj j' hj' heq
          rcases List.mem_append.mp ht' with ht' | ht'
          · -- an earlier batch ends before this one starts
            have hmem' : t' ∈ threads (bs ++ [b]) := by
              rw [threads_append]
              exact List.mem_append_left _ ht'
            have hbefore := (List.pairwise_append.mp hlaid.sep).2.2 _ (mem_threads.mp ht').1 b
              (by simp) k
            have h₁ := (hlaid.slot_bounds hmem' hj').2
            have h₂ := (hlaid.slot_bounds (hmem i hlt) hj).1
            simp only at h₂
            omega
          · obtain ⟨i', hi', rfl⟩ := List.mem_map.mp ht'
            have hi'' := List.mem_range.mp hi'
            have := (hlaid.slot_inj (hmem i hlt) (hmem i' (by omega)) hj hj' heq).1
            cases this
            omega)
        (by
          rw [hgen]
          intro r hr
          have hgmem : g ∈ b.gens := by
            rw [← hg, List.getD_eq_getElem _ _ hlt]
            exact List.getElem_mem hlt
          refine (hwatch g hgmem r hr).imp_right ?_
          rintro ⟨t', ht', hr'⟩
          exact ⟨t', List.mem_append_left _ ht', hr'⟩)
        (by rw [hgen]; exact hstep)
      refine ih (i + 1) s₁ ?_ hlt ?_ ?_ hrun
      · rw [← List.drop_drop, hdrop]
        rfl
      · rw [List.range_succ, List.map_append, ← List.append_assoc]
        exact hs₁
      · exact fun k => (hstart k).trans (hstart₁ k).symm

/-! ### The batches and layers of a plan -/

/-- The invariant of the loop over the batches. -/
structure Planned (a : BuildArgs) (bs : List KernelBatch) (s : PlanState) : Prop where
  laid : Laid a bs s.start
  mapped : Mapped a (threads bs) s
  origin_le : ∀ k, a.origin k ≤ s.start k

lemma Planned.planBatch {bs acc : List KernelBatch} {s : PlanState} (hs : Planned a bs s)
    {l : ℕ} {ty : String} {gens : List ℕ}
    (hfit : ∀ k, s.start k + gens.length * a.width k gens < 2 ^ 32)
    (hlen : gens.length < 2 ^ 32)
    (hlayer : ∀ b ∈ bs, b.layer ≤ l)
    (hwatch : ∀ g ∈ gens, ∀ r ∈ a.watchReps g,
      r ∈ a.inputReps ∨ ∃ t ∈ threads bs, r ∈ a.outputReps t.gen)
    {s' : PlanState} {acc' : List KernelBatch}
    (hrun : a.planBatch l (s, acc) (ty, gens) = .ok (s', acc')) :
    ∃ b, acc' = acc ++ [b] ∧ (b.layer = l ∧ b.type = ty ∧ b.gens = gens) ∧
      Planned a (bs ++ [b]) s' ∧ ∀ k, s'.start k = s.start k + gens.length * a.width k gens := by
  unfold BuildArgs.planBatch at hrun
  simp only [bind, Except.bind] at hrun
  split at hrun
  · cases hrun
  rename_i s₁ hfold
  obtain ⟨b, hb⟩ : ∃ b : KernelBatch,
      b = ⟨l, ty, gens, s.writeStart, s.readStart, s.paramStart, gens.length⟩ := ⟨_, rfl⟩
  have hstart : ∀ k, b.start k = s.start k := fun k => by subst hb; cases k <;> rfl
  have hgens : b.gens = gens := by rw [hb]
  have hblen : b.len = gens.length := by rw [hb]
  have hstop : ∀ k, a.stop k b = s.start k + gens.length * a.width k gens := fun k => by
    rw [BuildArgs.stop, hstart, hblen, hgens]
  have hlaid := hs.laid.concat hs.origin_le (b := b) (by rw [hblen, hgens]) hstart
    (by rw [hb]; exact hlayer)
  obtain ⟨hs₁, hstart₁⟩ := hs.mapped.foldlM_planGenerator hlaid (by rw [hstop]; exact hfit .write)
    hstart (by rw [hgens]; exact hwatch) (by rw [hgens, hblen]; exact hfold)
  have hw : s₁.writeStart = s.writeStart := hstart₁ .write
  have hr : s₁.readStart = s.readStart := hstart₁ .read
  have hp : s₁.paramStart = s.paramStart := hstart₁ .params
  have hfit' : ∀ k, u32 (s.start k + u32 (gens.length * a.width k gens)) =
      s.start k + gens.length * a.width k gens := fun k => by
    have := hfit k
    have hinner : u32 (gens.length * a.width k gens) = gens.length * a.width k gens :=
      u32_of_lt (by omega)
    rw [hinner, u32_of_lt this]
  have hend : ∀ k, s'.start k = s.start k + gens.length * a.width k gens := by
    simp only [pure, Except.pure, Except.ok.injEq, Prod.mk.injEq] at hrun
    obtain ⟨rfl, -⟩ := hrun
    intro k
    rw [← hfit' k, ← hstart₁ k]
    cases k <;> rfl
  simp only [pure, Except.pure, Except.ok.injEq, Prod.mk.injEq] at hrun
  obtain ⟨hs', hacc⟩ := hrun
  rw [hw, hr, hp, u32_of_lt hlen, ← hb] at hacc
  refine ⟨b, hacc.symm, by rw [hb]; exact ⟨rfl, rfl, rfl⟩, ⟨?_, ?_, ?_⟩, hend⟩
  · have : s'.start = fun k => a.stop k b := funext fun k => (hend k).trans (hstop k).symm
    rw [this]
    exact hlaid
  · subst hs'
    exact ⟨hs₁.input, hs₁.output, hs₁.set, hs₁.read, hs₁.param⟩
  · intro k
    rw [hend]
    exact (hs.origin_le k).trans (Nat.le_add_right _ _)

lemma Planned.foldlM_planBatch {l : ℕ} (batches : List (String × List ℕ))
    {bs acc : List KernelBatch} {s : PlanState} (hs : Planned a bs s)
    (hfit : ∀ k, s.start k + a.size k batches < 2 ^ 32)
    (hlen : ∀ b ∈ batches, b.2.length < 2 ^ 32)
    (hlayer : ∀ b ∈ bs, b.layer ≤ l)
    (hwatch : ∀ b ∈ batches, ∀ g ∈ b.2, ∀ r ∈ a.watchReps g,
      r ∈ a.inputReps ∨ ∃ t ∈ threads bs, r ∈ a.outputReps t.gen)
    {s' : PlanState} {acc' : List KernelBatch}
    (hrun : batches.foldlM (a.planBatch l) (s, acc) = .ok (s', acc')) :
    ∃ new, acc' = acc ++ new ∧ (new.map fun b => (b.type, b.gens)) = batches ∧
      (∀ b ∈ new, b.layer = l) ∧ Planned a (bs ++ new) s' ∧
      ∀ k, s'.start k = s.start k + a.size k batches := by
  induction batches generalizing bs acc s with
  | nil =>
    cases hrun
    exact ⟨[], by simp, rfl, by simp, by simpa using hs, by simp [BuildArgs.size]⟩
  | cons tg batches ih =>
    obtain ⟨ty, gens⟩ := tg
    have hsize : ∀ k, a.size k ((ty, gens) :: batches) =
        gens.length * a.width k gens + a.size k batches := fun k => by simp [BuildArgs.size]
    rw [List.foldlM_cons] at hrun
    cases hstep : a.planBatch l (s, acc) (ty, gens) with
    | error e =>
      rw [hstep] at hrun
      cases hrun
    | ok acc₁ =>
      rw [hstep] at hrun
      obtain ⟨s₁, acc₁⟩ := acc₁
      have hlen₁ : gens.length < 2 ^ 32 := hlen (ty, gens) (by simp)
      obtain ⟨b, rfl, ⟨hl, hty, hgens⟩, hs₁, hstart₁⟩ := hs.planBatch
        (fun k => by have := hfit k; rw [hsize] at this; omega)
        hlen₁ hlayer (hwatch (ty, gens) (by simp)) hstep
      obtain ⟨new, rfl, hmap, hnew, hs', hstart'⟩ := ih hs₁
        (fun k => by have := hfit k; rw [hsize] at this; rw [hstart₁]; omega)
        (fun b hb => hlen b (by simp [hb]))
        (by
          intro b' hb'
          rcases List.mem_append.mp hb' with hb' | hb'
          · exact hlayer b' hb'
          · rw [List.mem_singleton.mp hb', hl])
        (by
          intro b' hb' g hg r hr
          refine (hwatch b' (by simp [hb']) g hg r hr).imp_right ?_
          rintro ⟨t, ht, hout⟩
          exact ⟨t, by rw [threads_append]; exact List.mem_append_left _ ht, hout⟩)
        hrun
      refine ⟨b :: new, by simp, by simp [hty, hgens, hmap], ?_, by simpa using hs', ?_⟩
      · intro b' hb'
        rcases List.mem_cons.mp hb' with rfl | hb'
        · exact hl
        · exact hnew b' hb'
      · intro k
        rw [hstart', hstart₁, hsize]
        omega

/-- The size of the regions of the first `m` layers. -/
def Schedule.size (a : BuildArgs) (s : Schedule) (k : Region) (m : ℕ) : ℕ :=
  ((List.range m).map fun l => a.size k (s.layer l).toList).sum

/-- The sizes that the plan keeps as 32-bit numbers fit: the slots of the witness, the read map,
the parameters, and the generators themselves. -/
def Schedule.Fits (a : BuildArgs) (s : Schedule) : Prop :=
  (∀ k, a.origin k + s.size a k (s.levels.maxLevel + 1) < 2 ^ 32) ∧ a.n < 2 ^ 32

/-- What the plan needs from a schedule. -/
structure Schedule.Runnable (a : BuildArgs) (s : Schedule) : Prop where
  lt : ∀ l, ∀ b ∈ (s.layer l).toList, ∀ g ∈ b.2, g < a.n
  type : ∀ l, ∀ b ∈ (s.layer l).toList, ∀ g ∈ b.2, (a.generator g).id = b.1
  len : ∀ l, ∀ b ∈ (s.layer l).toList, b.2.length ≤ a.n
  placed : ∀ g < a.n, ∃ l ≤ s.levels.maxLevel, ∃ b ∈ (s.layer l).toList, g ∈ b.2
  unique : ∀ l l', ∀ b ∈ (s.layer l).toList, ∀ b' ∈ (s.layer l').toList, ∀ i i' g : ℕ,
    b.2[i]? = some g → b'.2[i']? = some g → l = l' ∧ b = b' ∧ i = i'
  watch : ∀ l, ∀ b ∈ (s.layer l).toList, ∀ g ∈ b.2, ∀ r ∈ a.watchReps g,
    r ∈ a.inputReps ∨ ∃ l' < l, ∃ b' ∈ (s.layer l').toList, ∃ p ∈ b'.2, r ∈ a.outputReps p

lemma Schedule.size_le {s : Schedule} {k : Region} {m m' : ℕ} (h : m ≤ m') :
    s.size a k m ≤ s.size a k m' := by
  obtain ⟨d, rfl⟩ := Nat.exists_eq_add_of_le h
  simp [Schedule.size, List.range_add]

/-- The layers of a plan are those of its schedule. -/
structure WitnessPlan.Follows (s : Schedule) (layers : List (List KernelBatch)) : Prop where
  map : layers.map (·.map fun b => (b.type, b.gens)) =
    (List.range layers.length).map fun l => (s.layer l).toList
  layer : ∀ (l : ℕ) (bs : List KernelBatch), layers[l]? = some bs → ∀ b ∈ bs, b.layer = l

lemma WitnessPlan.Follows.getElem? {s : Schedule} {layers : List (List KernelBatch)}
    (h : WitnessPlan.Follows s layers) {l : ℕ} {bs : List KernelBatch} (hl : layers[l]? = some bs) :
    (bs.map fun b => (b.type, b.gens)) = (s.layer l).toList := by
  have hlt := length_of_getElem? hl
  have := congrArg (·[l]?) h.map
  simp only [List.getElem?_map, hl, List.getElem?_range hlt, Option.map_some] at this
  exact Option.some.inj this

lemma WitnessPlan.Follows.concat {s : Schedule} {layers : List (List KernelBatch)}
    (h : WitnessPlan.Follows s layers) {bs : List KernelBatch}
    (hmap : (bs.map fun b => (b.type, b.gens)) = (s.layer layers.length).toList)
    (hlayer : ∀ b ∈ bs, b.layer = layers.length) : WitnessPlan.Follows s (layers ++ [bs]) where
  map := by simp [List.range_succ, h.map, hmap]
  layer := by
    intro l bs' hl b hb
    rcases lt_trichotomy l layers.length with hlt | rfl | hgt
    · rw [List.getElem?_append_left hlt] at hl
      exact h.layer l bs' hl b hb
    · rw [List.getElem?_concat_length] at hl
      obtain rfl := Option.some.inj hl
      exact hlayer b hb
    · rw [List.getElem?_eq_none (by simp; omega)] at hl
      cases hl

/-- A generator of an earlier layer of the schedule has a thread in the plan. -/
lemma WitnessPlan.Follows.exists_thread {s : Schedule} {layers : List (List KernelBatch)}
    (h : WitnessPlan.Follows s layers) {limit : Region → ℕ} (hlaid : Laid a layers.flatten limit)
    {l : ℕ} (hl : l < layers.length) {b : String × List ℕ} (hb : b ∈ (s.layer l).toList) {g : ℕ}
    (hg : g ∈ b.2) : ∃ t ∈ threads layers.flatten, t.batch.layer = l ∧ t.gen = g := by
  have hget : layers[l]? = some layers[l] := List.getElem?_eq_getElem hl
  rw [← h.getElem? hget] at hb
  obtain ⟨b', hb', rfl⟩ := List.mem_map.mp hb
  obtain ⟨i, hi, hig⟩ := List.getElem_of_mem hg
  have hmem : b' ∈ layers.flatten := List.mem_flatten.mpr ⟨_, List.getElem_mem hl, hb'⟩
  refine ⟨⟨b', i⟩, mem_threads.mpr ⟨hmem, ?_⟩, h.layer l _ hget b' hb', ?_⟩
  · rw [hlaid.len b' hmem]
    exact hi
  · rw [Thread.gen, List.getD_eq_getElem _ _ hi]
    exact hig

lemma Planned.foldlM_planLayer {s : Schedule} (hsched : s.Runnable a) (hfits : s.Fits a)
    (hinit : Planned a [] a.planInit) (m : ℕ) (hm : m ≤ s.levels.maxLevel + 1)
    (horigin : ∀ k, a.planInit.start k = a.origin k) {st : PlanState}
    {layers : List (List KernelBatch)}
    (hrun : (List.range m).foldlM (a.planLayer s.layer) (a.planInit, []) = .ok (st, layers)) :
    layers.length = m ∧ WitnessPlan.Follows s layers ∧ Planned a layers.flatten st ∧
      ∀ k, st.start k = a.origin k + s.size a k m := by
  induction m generalizing st layers with
  | zero =>
    cases hrun
    exact ⟨rfl, ⟨rfl, by simp⟩, by simpa using hinit, by simp [Schedule.size, horigin]⟩
  | succ m ih =>
    rw [List.range_succ, List.foldlM_append] at hrun
    cases hprev : (List.range m).foldlM (a.planLayer s.layer) (a.planInit, []) with
    | error e =>
      rw [hprev] at hrun
      cases hrun
    | ok prev =>
      obtain ⟨st₀, layers₀⟩ := prev
      obtain ⟨hlen, hfollows, hplanned, hstart⟩ := ih (by omega) hprev
      rw [hprev] at hrun
      have hlast : a.planLayer s.layer (st₀, layers₀) m = .ok (st, layers) := by
        rw [← hrun]
        simp [bind, Except.bind, pure, Except.pure]
        cases a.planLayer s.layer (st₀, layers₀) m <;> rfl
      unfold BuildArgs.planLayer at hlast
      simp only [bind, Except.bind] at hlast
      split at hlast
      · cases hlast
      rename_i out hfold
      obtain ⟨st₁, bs₁⟩ := out
      simp only [pure, Except.pure, Except.ok.injEq, Prod.mk.injEq] at hlast
      obtain ⟨rfl, rfl⟩ := hlast
      have hsize : ∀ k, s.size a k (m + 1) = s.size a k m + a.size k (s.layer m).toList := by
        intro k
        simp [Schedule.size, List.range_succ]
      obtain ⟨new, hnew, hmap, hlayer, hplanned', hstart'⟩ := hplanned.foldlM_planBatch
        (s.layer m).toList
        (fun k => by
          have htotal := hfits.1 k
          have hle : s.size a k (m + 1) ≤ s.size a k (s.levels.maxLevel + 1) :=
            Schedule.size_le hm
          rw [hsize] at hle
          rw [hstart]
          omega)
        (fun b hb => lt_of_le_of_lt (hsched.len m b hb) hfits.2)
        (by
          intro b hb
          obtain ⟨bs, hbs, hb⟩ := List.mem_flatten.mp hb
          obtain ⟨l, hl, rfl⟩ := List.getElem_of_mem hbs
          rw [hfollows.layer l _ (List.getElem?_eq_getElem hl) b hb]
          omega)
        (by
          intro b hb g hg r hr
          refine (hsched.watch m b hb g hg r hr).imp_right ?_
          rintro ⟨l', hl', b', hb', p, hp, hout⟩
          obtain ⟨t, ht, -, hgen⟩ :=
            hfollows.exists_thread hplanned.laid (by omega) hb' hp
          exact ⟨t, ht, hgen ▸ hout⟩)
        hfold
      rw [List.nil_append] at hnew
      subst hnew
      refine ⟨by simp [hlen], hfollows.concat (by rw [hlen]; exact hmap)
        (by rw [hlen]; exact hlayer), by simpa using hplanned', ?_⟩
      intro k
      rw [hstart', hstart, hsize]
      omega

/-! ### The inputs -/

lemma BuildArgs.inputSlots_spec (r : ℕ) :
    (r ∉ a.inputReps → a.inputSlots r = u32Max) ∧
      (r ∈ a.inputReps → ∃ k, a.inputReps[k]? = some r ∧ a.inputSlots r = u32 k) := by
  have key : ∀ (l : List (ℕ × ℕ)) (m : ℕ → ℕ),
      let m' := l.foldl (fun m ri => Function.update m ri.1 (u32 ri.2)) m
      (r ∉ l.map Prod.fst → m' r = m r) ∧
        (r ∈ l.map Prod.fst → ∃ k, (r, k) ∈ l ∧ m' r = u32 k) := by
    intro l
    induction l with
    | nil => simp
    | cons p l ih =>
      intro m
      obtain ⟨r', k⟩ := p
      obtain ⟨hout, hin⟩ := ih (Function.update m r' (u32 k))
      simp only [List.foldl_cons, List.map_cons, List.mem_cons, not_or]
      refine ⟨fun h => (hout h.2).trans (Function.update_of_ne h.1 _ _), fun h => ?_⟩
      by_cases hmem : r ∈ l.map Prod.fst
      · obtain ⟨k', hk', heq⟩ := hin hmem
        exact ⟨k', .inr hk', heq⟩
      · obtain rfl : r = r' := h.resolve_right hmem
        exact ⟨k, .inl rfl, (hout hmem).trans (Function.update_self _ _ _)⟩
  obtain ⟨hout, hin⟩ := key a.inputReps.zipIdx fun _ => u32Max
  rw [List.zipIdx_map_fst] at hout hin
  refine ⟨hout, fun hr => ?_⟩
  obtain ⟨k, hk, heq⟩ := hin hr
  exact ⟨k, List.mk_mem_zipIdx_iff_getElem?.mp hk, heq⟩

lemma Planned.planInit (hfit : a.inputTargets.length < 2 ^ 32) :
    Planned a [] a.planInit ∧ ∀ k, a.planInit.start k = a.origin k := by
  have horigin : ∀ k, a.planInit.start k = a.origin k := by
    intro k
    cases k with
    | write => exact u32_of_lt hfit
    | read => rfl
    | params => rfl
  have hlt : ∀ k r, a.inputReps[k]? = some r → k < a.inputTargets.length := fun k r hk => by
    simpa [BuildArgs.inputReps] using length_of_getElem? hk
  refine ⟨⟨Laid.nil _, ⟨?_, ?_, ?_, ?_, ?_⟩, fun k => (horigin k).ge⟩, horigin⟩
  · intro r hr
    obtain ⟨k, hk, heq⟩ := (a.inputSlots_spec r).2 hr
    exact ⟨k, hk, heq.trans (u32_of_lt ((hlt k r hk).trans hfit))⟩
  · intro t ht
    simp [threads] at ht
  · intro r
    simp only [threads, List.flatMap_nil, List.not_mem_nil, false_and, exists_false, or_false]
    by_cases hr : r ∈ a.inputReps
    · obtain ⟨k, hk, heq⟩ := (a.inputSlots_spec r).2 hr
      have hk' := hlt k r hk
      simp only [hr, iff_true]
      change a.inputSlots r ≠ u32Max
      rw [heq, u32_of_lt (hk'.trans hfit)]
      unfold u32Max
      omega
    · simp only [hr, iff_false, ne_eq, not_not]
      exact (a.inputSlots_spec r).1 hr
  · intro t ht
    simp [threads] at ht
  · intro t ht
    simp [threads] at ht

/-- The plan of a schedule whose sizes fit. -/
lemma BuildArgs.plan_spec {s : Schedule} (hsched : s.Runnable a) (hfits : s.Fits a)
    {p : WitnessPlan} (hp : a.plan s = .ok p) :
    p.layers.length = s.levels.maxLevel + 1 ∧ WitnessPlan.Follows s p.layers ∧
      ∃ st, Planned a p.layers.flatten st ∧ (∀ k, st.start k < 2 ^ 32) ∧
        st.writeMap = p.writeMap ∧ st.readMap = p.readMap ∧ st.params = p.params := by
  have hinputs : a.inputTargets.length < 2 ^ 32 :=
    lt_of_le_of_lt (Nat.le_add_right _ _) (hfits.1 .write)
  obtain ⟨hinit, horigin⟩ := Planned.planInit hinputs
  unfold BuildArgs.plan at hp
  simp only [bind, Except.bind] at hp
  split at hp
  · cases hp
  rename_i out hrun
  obtain ⟨st, layers⟩ := out
  simp only [pure, Except.pure, Except.ok.injEq] at hp
  subst hp
  obtain ⟨hlen, hfollows, hplanned, hstart⟩ :=
    hinit.foldlM_planLayer hsched hfits _ (le_refl _) horigin hrun
  exact ⟨hlen, hfollows, st, hplanned, fun k => by rw [hstart]; exact hfits.1 k, rfl, rfl, rfl⟩

end MegaZK
