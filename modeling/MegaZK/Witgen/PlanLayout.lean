import MegaZK.Lib.Scatter
import MegaZK.Witgen.Validity
import MegaZK.Witgen.Plan

/-! # The regions and maps of a plan

As long as no size wraps, the batches of a plan occupy consecutive regions, so a slot belongs to
one item of one thread. Then what the loops over the items of one generator store. -/

namespace MegaZK

/-! ### Regions -/

/-- The three arrays a batch has a region in. -/
inductive Region
  | write
  | read
  | params
  deriving DecidableEq

instance : Fintype Region :=
  ⟨{.write, .read, .params}, fun k => by cases k <;> decide⟩

variable {a : BuildArgs}

namespace KernelBatch

/-- Where the region of a batch starts. -/
def start (b : KernelBatch) : Region → ℕ
  | .write => b.writeStart
  | .read => b.readStart
  | .params => b.paramsStart

end KernelBatch

namespace BuildArgs

variable (a : BuildArgs)

/-- The number of items a generator has in a region. -/
def items (k : Region) (g : ℕ) : ℕ :=
  match k with
  | .write => (a.outputReps g).length
  | .read => (a.watchReps g).length
  | .params => (a.generator g).params.length

/-- The number of items reserved for every generator of a batch. -/
def width (k : Region) (gens : List ℕ) : ℕ :=
  match k with
  | .write => a.maxOut gens
  | .read => a.maxIn gens
  | .params => a.maxParams gens

/-- Where the first batch starts: the inputs take the first slots of the witness. -/
def origin : Region → ℕ
  | .write => a.inputTargets.length
  | .read => 0
  | .params => 0

/-- The size of the regions of a list of batches. -/
def size (k : Region) (batches : List (String × List ℕ)) : ℕ :=
  (batches.map fun b => b.2.length * a.width k b.2).sum

/-- Where the region of a batch ends. -/
def stop (k : Region) (b : KernelBatch) : ℕ := b.start k + b.len * a.width k b.gens

end BuildArgs

namespace Thread

/-- The generator a thread computes. -/
def gen (t : Thread) : ℕ := t.batch.gens.getD t.tid 0

/-- The cell of item `j` of a thread. -/
def slot (k : Region) (t : Thread) (j : ℕ) : ℕ := t.batch.start k + t.tid + j * t.batch.len

end Thread

private lemma le_foldl_maxLength {α : Type*} (list : ℕ → List α) (gens : List ℕ) (m : ℕ) :
    m ≤ gens.foldl (fun m g => max m (list g).length) m ∧
      ∀ g ∈ gens, (list g).length ≤ gens.foldl (fun m g => max m (list g).length) m := by
  induction gens generalizing m with
  | nil => simp
  | cons g gens ih =>
    obtain ⟨hle, hmem⟩ := ih (max m (list g).length)
    rw [List.foldl_cons]
    refine ⟨le_trans (le_max_left _ _) hle, ?_⟩
    intro g' hg'
    rcases List.mem_cons.mp hg' with rfl | hg'
    · exact le_trans (le_max_right _ _) hle
    · exact hmem g' hg'

lemma BuildArgs.items_le_width {gens : List ℕ} {g : ℕ} (hg : g ∈ gens) (k : Region) :
    a.items k g ≤ a.width k gens := by
  cases k with
  | write => exact (le_foldl_maxLength a.outputReps gens 0).2 g hg
  | read => exact (le_foldl_maxLength a.watchReps gens 0).2 g hg
  | params => exact (le_foldl_maxLength (fun g => (a.generator g).params) gens 0).2 g hg

/-- The batches occupy consecutive regions below `limit`, layer after layer. -/
structure Laid (a : BuildArgs) (bs : List KernelBatch) (limit : Region → ℕ) : Prop where
  len : ∀ b ∈ bs, b.len = b.gens.length
  origin_le : ∀ b ∈ bs, ∀ k, a.origin k ≤ b.start k
  stop_le : ∀ b ∈ bs, ∀ k, a.stop k b ≤ limit k
  sep : bs.Pairwise fun b b' => ∀ k, a.stop k b ≤ b'.start k
  layer : bs.Pairwise fun b b' => b.layer ≤ b'.layer

lemma mem_threads {bs : List KernelBatch} {t : Thread} :
    t ∈ threads bs ↔ t.batch ∈ bs ∧ t.tid < t.batch.len := by
  obtain ⟨b, tid⟩ := t
  simp only [threads, List.mem_flatMap, List.mem_map, List.mem_range]
  constructor
  · rintro ⟨b', hb', tid', htid, heq⟩
    cases heq
    exact ⟨hb', htid⟩
  · rintro ⟨hb, htid⟩
    exact ⟨b, hb, tid, htid, rfl⟩

lemma threads_append (bs bs' : List KernelBatch) :
    threads (bs ++ bs') = threads bs ++ threads bs' := by
  simp [threads]

namespace Laid

variable {bs : List KernelBatch} {limit : Region → ℕ}

lemma gen_mem (hbs : Laid a bs limit) {t : Thread} (ht : t ∈ threads bs) :
    t.gen ∈ t.batch.gens := by
  obtain ⟨hb, htid⟩ := mem_threads.mp ht
  rw [hbs.len _ hb] at htid
  rw [Thread.gen, List.getD_eq_getElem _ _ htid]
  exact List.getElem_mem htid

/-- The items of a thread lie in the region of its batch. -/
lemma slot_bounds (hbs : Laid a bs limit) {t : Thread} (ht : t ∈ threads bs) {k : Region} {j : ℕ}
    (hj : j < a.items k t.gen) :
    t.batch.start k ≤ t.slot k j ∧ t.slot k j < a.stop k t.batch := by
  obtain ⟨hb, htid⟩ := mem_threads.mp ht
  have hwidth := a.items_le_width (hbs.gen_mem ht) k
  refine ⟨by unfold Thread.slot; omega, ?_⟩
  calc t.slot k j < t.batch.start k + (j + 1) * t.batch.len := by
        unfold Thread.slot
        rw [Nat.succ_mul]
        omega
    _ ≤ t.batch.start k + a.width k t.batch.gens * t.batch.len := by
        have := Nat.mul_le_mul_right t.batch.len (by omega : j + 1 ≤ a.width k t.batch.gens)
        omega
    _ = a.stop k t.batch := by rw [BuildArgs.stop, Nat.mul_comm]

lemma slot_lt (hbs : Laid a bs limit) {t : Thread} (ht : t ∈ threads bs) {k : Region} {j : ℕ}
    (hj : j < a.items k t.gen) : a.origin k ≤ t.slot k j ∧ t.slot k j < limit k := by
  obtain ⟨hb, -⟩ := mem_threads.mp ht
  obtain ⟨hle, hlt⟩ := hbs.slot_bounds ht hj
  exact ⟨le_trans (hbs.origin_le _ hb k) hle, lt_of_lt_of_le hlt (hbs.stop_le _ hb k)⟩

/-- A cell belongs to one item of one thread. -/
lemma slot_inj (hbs : Laid a bs limit) {t t' : Thread} (ht : t ∈ threads bs) (ht' : t' ∈ threads bs)
    {k : Region} {j j' : ℕ} (hj : j < a.items k t.gen) (hj' : j' < a.items k t'.gen)
    (h : t.slot k j = t'.slot k j') : t = t' ∧ j = j' := by
  obtain ⟨hb, htid⟩ := mem_threads.mp ht
  obtain ⟨hb', htid'⟩ := mem_threads.mp ht'
  obtain ⟨hle, hlt⟩ := hbs.slot_bounds ht hj
  obtain ⟨hle', hlt'⟩ := hbs.slot_bounds ht' hj'
  have hcases : t.batch = t'.batch ∨ a.stop k t.batch ≤ t'.batch.start k ∨
      a.stop k t'.batch ≤ t.batch.start k := by
    refine List.Pairwise.forall_of_forall_of_flip
      (R := fun b b' => b = b' ∨ a.stop k b ≤ b'.start k ∨ a.stop k b' ≤ b.start k)
      ?_ ?_ ?_ hb hb'
    · exact fun b _ => .inl rfl
    · exact hbs.sep.imp fun h => .inr (.inl (h k))
    · exact hbs.sep.imp fun h => .inr (.inr (h k))
  rcases hcases with hbatch | hsep | hsep
  · obtain ⟨b, i⟩ := t
    obtain ⟨b', i'⟩ := t'
    obtain rfl : b = b' := hbatch
    simp only [Thread.slot, Nat.add_assoc, Nat.add_left_cancel_iff] at h
    obtain ⟨rfl, rfl⟩ := Scatter.stride_inj htid htid' h
    exact ⟨rfl, rfl⟩
  · omega
  · omega

lemma nil (limit : Region → ℕ) : Laid a [] limit where
  len := by simp
  origin_le := by simp
  stop_le := by simp
  sep := .nil
  layer := .nil

/-- The next batch starts where the others end. -/
lemma concat (hbs : Laid a bs limit) (horigin : ∀ k, a.origin k ≤ limit k) {b : KernelBatch}
    (hlen : b.len = b.gens.length) (hstart : ∀ k, b.start k = limit k)
    (hlayer : ∀ b' ∈ bs, b'.layer ≤ b.layer) : Laid a (bs ++ [b]) fun k => a.stop k b := by
  have hle : ∀ k, limit k ≤ a.stop k b := fun k => by
    rw [BuildArgs.stop, hstart]
    exact Nat.le_add_right _ _
  refine ⟨?_, ?_, ?_, ?_, ?_⟩
  · intro b' hb'
    rcases List.mem_append.mp hb' with hb' | hb'
    · exact hbs.len b' hb'
    · obtain rfl := List.mem_singleton.mp hb'
      exact hlen
  · intro b' hb' k
    rcases List.mem_append.mp hb' with hb' | hb'
    · exact hbs.origin_le b' hb' k
    · obtain rfl := List.mem_singleton.mp hb'
      exact (horigin k).trans (hstart k).ge
  · intro b' hb' k
    rcases List.mem_append.mp hb' with hb' | hb'
    · exact (hbs.stop_le b' hb' k).trans (hle k)
    · obtain rfl := List.mem_singleton.mp hb'
      exact le_refl _
  · rw [List.pairwise_append]
    refine ⟨hbs.sep, List.pairwise_singleton _ _, ?_⟩
    intro b' hb' b'' hb'' k
    obtain rfl := List.mem_singleton.mp hb''
    exact (hbs.stop_le b' hb' k).trans (hstart k).ge
  · rw [List.pairwise_append]
    refine ⟨hbs.layer, List.pairwise_singleton _ _, ?_⟩
    intro b' hb' b'' hb''
    obtain rfl := List.mem_singleton.mp hb''
    exact hlayer b' hb'

end Laid

/-! ### Filling the maps -/

/-- The first item of a representative without a slot gives it one; nothing else changes. -/
lemma BuildArgs.claimSlots_spec (slot : ℕ → ℕ) (reps : List ℕ) (m : ℕ → ℕ) (r : ℕ) :
    (m r ≠ u32Max → claimSlots slot reps m r = m r) ∧
    (r ∉ reps → claimSlots slot reps m r = m r) ∧
    (m r = u32Max → r ∈ reps →
      ∃ j, reps[j]? = some r ∧ claimSlots slot reps m r = slot j) := by
  -- over a list of pairs, so that the index need not start at zero
  have key : ∀ (l : List (ℕ × ℕ)) (m : ℕ → ℕ),
      let m' := l.foldl
        (fun m rj => if m rj.1 = u32Max then Function.update m rj.1 (slot rj.2) else m) m
      (m r ≠ u32Max → m' r = m r) ∧ (r ∉ l.map Prod.fst → m' r = m r) ∧
        (m r = u32Max → r ∈ l.map Prod.fst → ∃ j, (r, j) ∈ l ∧ m' r = slot j) := by
    intro l
    induction l with
    | nil => simp
    | cons p l ih =>
      intro m
      obtain ⟨r', j⟩ := p
      simp only [List.foldl_cons]
      by_cases hr : r' = r
      · subst hr
        by_cases hm : m r' = u32Max
        · simp only [hm, ↓reduceIte]
          obtain ⟨hset, hout, hclaim⟩ := ih (Function.update m r' (slot j))
          rw [Function.update_self] at hset hout hclaim
          refine ⟨fun h => absurd rfl h, by simp, fun _ _ => ?_⟩
          by_cases hj : slot j = u32Max
          · by_cases hmem : r' ∈ l.map Prod.fst
            · obtain ⟨j', hj', heq⟩ := hclaim hj hmem
              exact ⟨j', List.mem_cons_of_mem _ hj', heq⟩
            · exact ⟨j, by simp, hout hmem⟩
          · exact ⟨j, by simp, hset hj⟩
        · simp only [hm, ↓reduceIte]
          obtain ⟨hset, -, -⟩ := ih m
          exact ⟨hset, by simp, fun h => h.elim⟩
      · have hstep : (if m r' = u32Max then Function.update m r' (slot j) else m) r = m r := by
          split_ifs
          · exact Function.update_of_ne (Ne.symm hr) _ _
          · rfl
        obtain ⟨hset, hout, hclaim⟩ :=
          ih (if m r' = u32Max then Function.update m r' (slot j) else m)
        rw [hstep] at hset hout hclaim
        refine ⟨hset, ?_, ?_⟩
        · intro hmem
          exact hout fun h => hmem (by simp [h])
        · intro hm hmem
          rw [List.map_cons, List.mem_cons] at hmem
          obtain ⟨j', hj', heq⟩ := hclaim hm (hmem.resolve_left (Ne.symm hr))
          exact ⟨j', List.mem_cons_of_mem _ hj', heq⟩
  obtain ⟨hset, hout, hclaim⟩ := key reps.zipIdx m
  rw [List.zipIdx_map_fst] at hout hclaim
  refine ⟨hset, hout, ?_⟩
  intro hm hr
  obtain ⟨j, hj, heq⟩ := hclaim hm hr
  exact ⟨j, List.mk_mem_zipIdx_iff_getElem?.mp hj, heq⟩

/-- Without an index error the list is stored. -/
lemma BuildArgs.storeAll_eq {len : ℕ} {addr : ℕ → ℕ} {vals : List ℕ} {m m' : ℕ → ℕ}
    (h : storeAll len addr vals m = .ok m') :
    m' = Scatter.scatter vals.zipIdx (fun vj => addr vj.2) Prod.fst m := by
  unfold storeAll at h
  generalize vals.zipIdx = l at h
  induction l generalizing m with
  | nil =>
    cases h
    rfl
  | cons vj l ih =>
    rw [List.foldlM_cons] at h
    by_cases hlt : addr vj.2 < len
    · rw [if_pos hlt] at h
      exact ih h
    · rw [if_neg hlt] at h
      cases h

/-- Cells that no item is stored to keep their value, and with distinct addresses every item is
found at its own. -/
lemma BuildArgs.storeAll_spec {len : ℕ} {addr : ℕ → ℕ} {vals : List ℕ} {m m' : ℕ → ℕ}
    (h : storeAll len addr vals m = .ok m') :
    (∀ x, (∀ j < vals.length, addr j ≠ x) → m' x = m x) ∧
      ((∀ j < vals.length, ∀ j' < vals.length, addr j = addr j' → j = j') →
        ∀ j v, vals[j]? = some v → m' (addr j) = v) := by
  rw [storeAll_eq h]
  have hlt : ∀ vj ∈ vals.zipIdx, vj.2 < vals.length := fun vj hvj => by
    have := List.mk_mem_zipIdx_iff_getElem?.mp (show (vj.1, vj.2) ∈ vals.zipIdx from hvj)
    exact (List.getElem?_eq_some_iff.mp this).1
  refine ⟨?_, ?_⟩
  · intro x hx
    exact Scatter.scatter_of_forall_ne m fun vj hvj => hx vj.2 (hlt vj hvj)
  · intro hinj j v hj
    have hmem : (v, j) ∈ vals.zipIdx := List.mk_mem_zipIdx_iff_getElem?.mpr hj
    refine Scatter.scatter_of_mem (fun vj : ℕ × ℕ => addr vj.2) Prod.fst m hmem ?_
    intro vj hvj heq
    have hidx := hinj _ (hlt vj hvj) _ (hlt _ hmem) heq
    have hget := List.mk_mem_zipIdx_iff_getElem?.mp (show (vj.1, vj.2) ∈ vals.zipIdx from hvj)
    rw [hidx, hj] at hget
    exact Prod.ext (Option.some.inj hget).symm hidx

end MegaZK
