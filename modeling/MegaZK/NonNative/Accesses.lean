import MegaZK.NonNative.Gadgets
import MegaZK.Witgen.PlanLayout

/-! # Slots of the kernels for numbers in limbs

Which dependencies a kernel reads and which outputs it writes, by the counts it keeps, against the
dependencies and outputs of the generators that the gadgets create. -/

namespace MegaZK

/-- The values of `read_count` and `write_count` at the accesses of a thread so far. -/
structure Accesses where
  reads : List ℕ
  writes : List ℕ
  deriving DecidableEq, Repr

namespace Accesses

def none : Accesses := ⟨[], []⟩

/-- A read at `read_count++`. -/
def read (s : Accesses) : Accesses := { s with reads := s.reads ++ [s.reads.length] }

/-- A write at `write_count++`. -/
def write (s : Accesses) : Accesses := { s with writes := s.writes ++ [s.writes.length] }

/-- A loop of `n` reads. -/
def readLoop (n : ℕ) (s : Accesses) : Accesses := read^[n] s

/-- A loop of `n` writes. -/
def writeLoop (n : ℕ) (s : Accesses) : Accesses := write^[n] s

/-- The first `numReads` dependencies and the first `numWrites` outputs, in order. -/
def prefixes (numReads numWrites : ℕ) : Accesses := ⟨List.range numReads, List.range numWrites⟩

lemma prefixes_zero : none = prefixes 0 0 := rfl

variable (r w n : ℕ)

@[simp]
lemma readLoop_prefixes : readLoop n (prefixes r w) = prefixes (r + n) w := by
  induction n with
  | zero => rfl
  | succ n ih =>
    rw [readLoop, Function.iterate_succ_apply', ← readLoop, ih]
    simp only [read, prefixes, List.length_range, ← add_assoc, List.range_succ]

@[simp]
lemma writeLoop_prefixes : writeLoop n (prefixes r w) = prefixes r (w + n) := by
  induction n with
  | zero => rfl
  | succ n ih =>
    rw [writeLoop, Function.iterate_succ_apply', ← writeLoop, ih]
    simp only [write, prefixes, List.length_range, ← add_assoc, List.range_succ]

@[simp]
lemma write_prefixes : write (prefixes r w) = prefixes r (w + 1) := writeLoop_prefixes r w 1

variable {r w} in
@[simp]
lemma prefixes_inj {r' w' : ℕ} : prefixes r w = prefixes r' w' ↔ r = r' ∧ w = w' := by
  constructor
  · intro h
    have hreads := congrArg (List.length ∘ Accesses.reads) h
    have hwrites := congrArg (List.length ∘ Accesses.writes) h
    simp only [prefixes, Function.comp_apply, List.length_range] at hreads hwrites
    exact ⟨hreads, hwrites⟩
  · rintro ⟨rfl, rfl⟩
    rfl

end Accesses

/-! ### The kernels -/

namespace Device

open Accesses

/-- `non_native_addition_generator_new_kernel`. -/
def nonNativeAdditionAccesses (params : List ℕ) : Accesses :=
  let numATarget := params.getD 1 0
  let numBTarget := params.getD 2 0
  none |> readLoop numATarget |> readLoop numBTarget |> writeLoop 8 |> write

/-- `non_native_subtraction_generator_new_kernel`. -/
def nonNativeSubtractionAccesses (params : List ℕ) : Accesses :=
  let numATarget := params.getD 1 0
  let numBTarget := params.getD 2 0
  none |> readLoop numATarget |> readLoop numBTarget |> writeLoop 8 |> write

/-- `non_native_multiplication_generator_new_kernel`. -/
def nonNativeMultiplicationAccesses (params : List ℕ) : Accesses :=
  let numATarget := params.getD 1 0
  let numOverflowTarget := params.getD 2 0
  none |> readLoop numATarget |> readLoop 8 |> writeLoop 8 |> writeLoop numOverflowTarget

/-- `non_native_inverse_generator_new_kernel`. -/
def nonNativeInverseAccesses : Accesses := none |> readLoop 8 |> writeLoop 8 |> writeLoop 8

/-- `biguint_div_rem_generator_new_kernel`. -/
def biguintDivRemAccesses : Accesses :=
  none |> readLoop 16 |> readLoop 8 |> writeLoop 9 |> writeLoop 8

end Device

namespace LimbGenerator

/-- The accesses of the kernel that the host launches for a generator. -/
def accesses (g : LimbGenerator) : Accesses :=
  match g with
  | nonNativeAddition .. => Device.nonNativeAdditionAccesses g.getParams
  | nonNativeSubtraction .. => Device.nonNativeSubtractionAccesses g.getParams
  | nonNativeMultiplication .. => Device.nonNativeMultiplicationAccesses g.getParams
  | nonNativeInverse .. => Device.nonNativeInverseAccesses
  | bigUintDivRem .. => Device.biguintDivRemAccesses

/-- A kernel that reads the dependencies and writes the outputs, in their order. -/
def Exact (g : LimbGenerator) : Prop :=
  g.accesses = Accesses.prefixes g.dependencies.length g.outputTargets.length

/-- The operands whose limbs the kernels count right. The last case of a division is one of a
quotient without limbs. -/
def Supported : LimbGenerator → Prop
  | nonNativeAddition field _ _ _ _ => field.numNonnativeLimbs = 8
  | nonNativeSubtraction field _ _ _ _ => field.numNonnativeLimbs = 8
  | nonNativeMultiplication field _ b _ _ => b.length = 8 ∧ field.numNonnativeLimbs = 8
  | nonNativeInverse _ x _ _ => x.length = 8
  | bigUintDivRem a b _ _ => a.length = 16 ∧ b.length = 8 ∨ a.length = 7 ∧ b.length = 17

/-- Every kernel reads and writes a first part of its slots. -/
lemma accesses_eq (g : LimbGenerator) : g.accesses = match g with
    | nonNativeAddition _ a b _ _ => Accesses.prefixes (a.length + b.length) 9
    | nonNativeSubtraction _ a b _ _ => Accesses.prefixes (a.length + b.length) 9
    | nonNativeMultiplication _ a _ _ overflow =>
      Accesses.prefixes (a.length + 8) (8 + overflow.length)
    | nonNativeInverse .. => Accesses.prefixes 8 16
    | bigUintDivRem .. => Accesses.prefixes 24 17 := by
  cases g <;> simp [accesses, getParams, Device.nonNativeAdditionAccesses,
    Device.nonNativeSubtractionAccesses, Device.nonNativeMultiplicationAccesses,
    Device.nonNativeInverseAccesses, Device.biguintDivRemAccesses, Accesses.prefixes_zero]

variable {g : LimbGenerator}

/-- The accesses of a gadget's generator are the right ones exactly for the supported operands. -/
lemma Created.exact_iff (hg : g.Created) : g.Exact ↔ g.Supported := by
  cases hg with
  | add field a b s =>
    obtain ⟨sum, overflow, heq, hsum⟩ := CircuitBuilder.addNonnative_spec field a b s
    rw [heq, Exact, accesses_eq, Accesses.prefixes_inj]
    simp only [dependencies, outputTargets, Supported, List.length_reverse, List.length_append,
      List.length_singleton, hsum]
    omega
  | sub field a b s =>
    obtain ⟨diff, overflow, heq, hdiff⟩ := CircuitBuilder.subNonnative_spec field a b s
    rw [heq, Exact, accesses_eq, Accesses.prefixes_inj]
    simp only [dependencies, outputTargets, Supported, List.length_reverse, List.length_append,
      List.length_singleton, hdiff]
    omega
  | mul field a b s g h =>
    obtain ⟨prod, overflow, rfl, hprod, hoverflow⟩ := CircuitBuilder.mulNonnative_spec h
    rw [Exact, accesses_eq, Accesses.prefixes_inj]
    simp only [dependencies, outputTargets, Supported, List.length_reverse, List.length_append,
      hprod]
    omega
  | inv field x s =>
    obtain ⟨inv, div, heq, hinv, hdiv⟩ := CircuitBuilder.invNonnative_spec field x s
    rw [heq, Exact, accesses_eq, Accesses.prefixes_inj]
    simp only [dependencies, outputTargets, Supported, List.length_reverse, List.length_append,
      hinv, hdiv]
    omega
  | divRem a b s =>
    obtain ⟨div, rem, heq, hdiv, hrem⟩ := CircuitBuilder.divRemBiguint_spec a b s
    rw [heq, Exact, accesses_eq, Accesses.prefixes_inj]
    simp only [dependencies, outputTargets, Supported, List.length_reverse, List.length_append,
      hdiv, hrem]
    omega

end LimbGenerator

/-! ### The slots of a batch -/

section Slots

variable {a : BuildArgs} {bs : List KernelBatch} {limit : Region → ℕ} {t : Thread}

/-- A slot of the region of a batch. -/
def BuildArgs.InRegion (a : BuildArgs) (k : Region) (b : KernelBatch) (x : ℕ) : Prop :=
  b.start k ≤ x ∧ x < a.stop k b

/-- The regions of two batches have no slot in common. -/
lemma Laid.batch_eq (hbs : Laid a bs limit) {b b' : KernelBatch} (hb : b ∈ bs) (hb' : b' ∈ bs)
    {k : Region} {x : ℕ} (h : a.InRegion k b x) (h' : a.InRegion k b' x) : b = b' := by
  refine List.Pairwise.forall_of_forall_of_flip
    (R := fun b b' => a.InRegion k b x → a.InRegion k b' x → b = b') ?_ ?_ ?_ hb hb' h h'
  · exact fun b _ _ _ => rfl
  · refine hbs.sep.imp ?_
    rintro b b' hsep ⟨-, hlt⟩ ⟨hle, -⟩
    exact absurd (hlt.trans_le (hsep k)) hle.not_gt
  · refine hbs.sep.imp ?_
    rintro b b' hsep ⟨hle, -⟩ ⟨-, hlt⟩
    exact absurd (hlt.trans_le (hsep k)) hle.not_gt

/-- Items of a thread with slots in the region of its own batch, and of no other. -/
def Thread.Confined (a : BuildArgs) (bs : List KernelBatch) (t : Thread) (k : Region)
    (items : List ℕ) : Prop :=
  ∀ j ∈ items, a.InRegion k t.batch (t.slot k j) ∧
    ∀ b ∈ bs, a.InRegion k b (t.slot k j) → b = t.batch

lemma Laid.confined (hbs : Laid a bs limit) (ht : t ∈ threads bs) {k : Region} {n : ℕ}
    (hn : n ≤ a.items k t.gen) : t.Confined a bs k (List.range n) := by
  obtain ⟨hbatch, -⟩ := mem_threads.mp ht
  intro j hj
  have hown := hbs.slot_bounds ht ((List.mem_range.mp hj).trans_le hn)
  exact ⟨hown, fun b hb h => hbs.batch_eq hb hbatch h hown⟩

lemma LimbGenerator.Exact.confined {g : LimbGenerator} (hexact : g.Exact) (hbs : Laid a bs limit)
    (ht : t ∈ threads bs) (hgen : a.generator t.gen = g.toGenerator) :
    t.Confined a bs .read g.accesses.reads ∧ t.Confined a bs .write g.accesses.writes := by
  rw [hexact]
  constructor
  · apply hbs.confined ht
    rw [BuildArgs.items, BuildArgs.watchReps, hgen, List.length_map]
    rfl
  · apply hbs.confined ht
    rw [BuildArgs.items, BuildArgs.outputReps, hgen, List.length_map]
    rfl

end Slots

/-- The kernels read and write the slots of a generator, in their order, exactly for the supported
operands; then no thread leaves its batch. -/
theorem LimbGenerator.Created.accesses_exact_iff {g : LimbGenerator} (hg : g.Created) :
    (g.Exact ↔ g.Supported) ∧
      (g.Supported → ∀ (a : BuildArgs) (bs : List KernelBatch) (limit : Region → ℕ),
        Laid a bs limit → ∀ t ∈ threads bs, a.generator t.gen = g.toGenerator →
          t.Confined a bs .read g.accesses.reads ∧ t.Confined a bs .write g.accesses.writes) :=
  ⟨hg.exact_iff, fun h _ _ _ hbs _ ht hgen => (hg.exact_iff.mpr h).confined hbs ht hgen⟩

theorem addNonnative_accesses_exact :
    (CircuitBuilder.addNonnative .secp256K1Base [] [] ⟨0, []⟩).1.Exact :=
  (LimbGenerator.Created.accesses_exact_iff (.add ..)).1.mpr rfl

/-- The product with the constant zero, whose target has no limbs: the kernel reads eight limbs past
the dependencies. -/
theorem mulNonnative_zero_not_exact :
    let program : StateM CircuitBuilder (Option LimbGenerator) := do
      let x ← CircuitBuilder.addVirtualBiguintTarget 8
      let zero ← CircuitBuilder.constantBiguint 0
      CircuitBuilder.mulNonnative .secp256K1Base x zero
    ∃ g : LimbGenerator, (program ⟨0, []⟩).1 = some g ∧ g.Created ∧ g.dependencies.length = 8 ∧
      g.accesses.reads = List.range 16 ∧ ¬ g.Exact := by
  let x : BigUintTarget := (List.range 8).map .virtualTarget
  let prod : BigUintTarget := (List.range 8).map fun i => .virtualTarget (8 + i)
  have hmul : (CircuitBuilder.mulNonnative .secp256K1Base x [] ⟨8, []⟩).1 =
      some (.nonNativeMultiplication .secp256K1Base x [] prod []) := by decide
  refine ⟨.nonNativeMultiplication .secp256K1Base x [] prod [], by decide +kernel,
    .mul _ _ _ _ _ hmul, rfl, by decide, ?_⟩
  intro hexact
  have hreads := congrArg (List.length ∘ Accesses.reads) hexact
  exact absurd hreads (by decide)

end MegaZK
