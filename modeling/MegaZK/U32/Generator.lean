import MegaZK.Lib.Scatter
import MegaZK.U32.Limbs

/-! # The generators of a row

A generator reads wires of its row and writes others. On the device its kernel writes one value for
each output target, in their order. -/

namespace MegaZK

open Horner Scatter

/-- A generator of a row, with its targets as columns. The kernel takes what the dependencies hold
and returns what it writes, counted by `write_count`. -/
structure RowGenerator where
  dependencies : List ℕ
  outputTargets : List ℕ
  kernel : (ℕ → GoldilocksField) → List GoldilocksField

namespace RowGenerator

variable (g : RowGenerator) (wires : ℕ → GoldilocksField)

/-- `witness[rep_map[read_start + tid + stride * k]]`. -/
def read (k : ℕ) : GoldilocksField := (g.dependencies.map wires).getD k 0

/-- Every output target holds what the kernel writes for it. -/
def Ran : Prop := g.outputTargets.map wires = g.kernel (g.read wires)

/-- The row after the kernel. -/
def run : ℕ → GoldilocksField :=
  scatter (g.outputTargets.zip (g.kernel (g.read wires))) Prod.fst Prod.snd wires

/-- The row after the kernels of several generators. -/
def runAll (l : List RowGenerator) (wires : ℕ → GoldilocksField) : ℕ → GoldilocksField :=
  l.foldl (fun wires g => g.run wires) wires

variable {g wires}

lemma run_of_notMem {column : ℕ} (h : column ∉ g.outputTargets) :
    g.run wires column = wires column := by
  apply scatter_of_forall_ne
  rintro ⟨target, value⟩ hmem rfl
  exact h (List.of_mem_zip hmem).1

lemma runAll_of_notMem {l : List RowGenerator} {column : ℕ}
    (h : column ∉ l.flatMap outputTargets) : runAll l wires column = wires column := by
  induction l generalizing wires with
  | nil => rfl
  | cons g l ih =>
    rw [List.flatMap_cons, List.mem_append, not_or] at h
    exact (ih h.2).trans (run_of_notMem h.1)

/-- A generator ran on a row as it ran on every row with the same targets. -/
lemma Ran.congr {wires' : ℕ → GoldilocksField} (h : g.Ran wires)
    (hdeps : ∀ column ∈ g.dependencies, wires' column = wires column)
    (htargets : ∀ column ∈ g.outputTargets, wires' column = wires column) : g.Ran wires' := by
  unfold Ran read at h ⊢
  rw [List.map_congr_left htargets, List.map_congr_left hdeps, h]

lemma ran_run (hlen : (g.kernel (g.read wires)).length = g.outputTargets.length)
    (hnodup : g.outputTargets.Nodup) (hdeps : ∀ column ∈ g.dependencies, column ∉ g.outputTargets) :
    g.Ran (g.run wires) := by
  have hread : g.read (g.run wires) = g.read wires := by
    unfold read
    rw [List.map_congr_left fun column hmem => run_of_notMem (hdeps column hmem)]
  rw [Ran, hread]
  apply List.ext_getElem
  · rw [List.length_map, hlen]
  · intro k hk hk'
    rw [List.getElem_map]
    rw [List.length_map] at hk
    have hmem : (g.outputTargets[k], (g.kernel (g.read wires))[k]) ∈
        g.outputTargets.zip (g.kernel (g.read wires)) := by
      rw [← List.getElem_zip (h := by rw [List.length_zip, hlen]; omega)]
      exact List.getElem_mem _
    refine scatter_of_forall_eq wires ⟨_, hmem, rfl⟩ ?_
    rintro ⟨target, value⟩ ht htarget
    obtain ⟨j, hj, hget⟩ := List.mem_iff_getElem.mp ht
    rw [List.getElem_zip, Prod.mk.injEq] at hget
    obtain rfl : j = k := (hnodup.getElem_inj_iff).mp (hget.1.trans htarget)
    exact hget.2.symm

/-- Generators with targets of their own all run. -/
lemma ran_runAll {l : List RowGenerator}
    (hlen : ∀ g ∈ l, ∀ read, (g.kernel read).length = g.outputTargets.length)
    (hnodup : (l.flatMap outputTargets).Nodup)
    (hdeps : ∀ g ∈ l, ∀ column ∈ g.dependencies, column ∉ l.flatMap outputTargets) :
    ∀ g ∈ l, g.Ran (runAll l wires) := by
  induction l generalizing wires with
  | nil => exact fun g hg => absurd hg List.not_mem_nil
  | cons g l ih =>
    simp only [List.flatMap_cons, List.mem_append, not_or] at hdeps
    rw [List.flatMap_cons, List.nodup_append'] at hnodup
    obtain ⟨hnodupHead, hnodupTail, hdisjoint⟩ := hnodup
    intro g' hg'
    cases List.mem_cons.mp hg' with
    | inl heq =>
      subst heq
      have hrun : g'.Ran (g'.run wires) :=
        ran_run (hlen g' hg' _) hnodupHead fun column hmem => (hdeps g' hg' column hmem).1
      apply hrun.congr
      · intro column hmem
        exact runAll_of_notMem (hdeps g' hg' column hmem).2
      · intro column hmem
        exact runAll_of_notMem fun hmem' => hdisjoint hmem hmem'
    | inr hmem =>
      exact ih (fun g'' hg'' => hlen g'' (List.mem_cons_of_mem _ hg'')) hnodupTail
        (fun g'' hg'' column hcolumn =>
          (hdeps g'' (List.mem_cons_of_mem _ hg'') column hcolumn).2) g' hmem

end RowGenerator

/-! ### Loops of the kernels -/

/-- Lists that are put together from pieces of one length are equal piece by piece. -/
lemma flatMap_inj {ι α : Type} {f g : ι → List α} {l : List ι} {n : ℕ}
    (hf : ∀ i ∈ l, (f i).length = n) (hg : ∀ i ∈ l, (g i).length = n)
    (h : l.flatMap f = l.flatMap g) : ∀ i ∈ l, f i = g i := by
  induction l with
  | nil => exact fun i hi => absurd hi List.not_mem_nil
  | cons j l ih =>
    have hlen : (f j).length = (g j).length :=
      (hf j List.mem_cons_self).trans (hg j List.mem_cons_self).symm
    obtain ⟨hhead, htail⟩ := List.append_inj h hlen
    intro i hi
    cases List.mem_cons.mp hi with
    | inl heq => exact heq ▸ hhead
    | inr hmem =>
      exact ih (fun i hi => hf i (List.mem_cons_of_mem j hi))
        (fun i hi => hg i (List.mem_cons_of_mem j hi)) htail i hmem

/-- `for (int j = 0; j < n; j++)`: `value % base` is written and `value` divided. -/
def splitLoop (base : ℕ) : ℕ → ℕ → List GoldilocksField
  | 0, _ => []
  | n + 1, value => ((value % base : ℕ) : GoldilocksField) :: splitLoop base n (value / base)

lemma splitLoop_eq (base n value : ℕ) :
    splitLoop base n value =
      (List.range n).map fun j => ((value / base ^ j % base : ℕ) : GoldilocksField) := by
  induction n generalizing value with
  | zero => rfl
  | succ n ih =>
    rw [splitLoop, ih, List.range_succ_eq_map, List.map_cons, List.map_map, pow_zero, Nat.div_one]
    congr 1
    apply List.map_congr_left
    intro j _
    rw [Function.comp_apply, Nat.div_div_eq_div_mul, ← pow_succ']

end MegaZK
