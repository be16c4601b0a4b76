import MegaZK.Device
import MegaZK.Witgen.Schedule

/-! # The device plan of the witness generation

The part of `WitnessService::build` that follows the scheduling: every batch gets a structure of
arrays region of the witness, of the read map and of the parameters, and every representative
gets the slot of the first output, in plan order, that populates it. Then the kernels that
execute a plan, and the scatter of the slots to the wires. -/

namespace MegaZK

/-- `WitnessKernelBatch`, with the id it is stored under. The layer and the generators are not
uploaded; thread `i` computes generator `gens[i]`. -/
structure KernelBatch where
  layer : ℕ
  type : String
  gens : List ℕ
  writeStart : ℕ
  readStart : ℕ
  paramsStart : ℕ
  len : ℕ

/-- The vectors that `build` fills, and the last entries of its three start vectors. -/
structure PlanState where
  writeMap : ℕ → ℕ
  readMap : ℕ → ℕ
  params : ℕ → ℕ
  writeStart : ℕ
  readStart : ℕ
  paramStart : ℕ

/-- What `build` uploads. -/
structure WitnessPlan where
  layers : List (List KernelBatch)
  writeMap : ℕ → ℕ
  readMap : ℕ → ℕ
  params : ℕ → ℕ

namespace BuildArgs

variable (a : BuildArgs)

/-- The length of the longest list that the generators have. -/
def maxLength {α : Type*} (list : ℕ → List α) (gens : List ℕ) : ℕ :=
  gens.foldl (fun m g => max m (list g).length) 0

def maxIn (gens : List ℕ) : ℕ := maxLength a.watchReps gens

def maxOut (gens : List ℕ) : ℕ := maxLength a.outputReps gens

def maxParams (gens : List ℕ) : ℕ := maxLength (fun g => (a.generator g).params) gens

/-- Store a list into a vector of length `len`, element `j` at `addr j`. -/
def storeAll (len : ℕ) (addr : ℕ → ℕ) (vals : List ℕ) (m : ℕ → ℕ) : Except String (ℕ → ℕ) :=
  vals.zipIdx.foldlM
    (fun m vj =>
      if addr vj.2 < len then .ok (Function.update m (addr vj.2) vj.1)
      else .error "index out of bounds")
    m

/-- Give output `j` of a list the slot `slot j`, unless its representative has one already. -/
def claimSlots (slot : ℕ → ℕ) (reps : List ℕ) (m : ℕ → ℕ) : ℕ → ℕ :=
  reps.zipIdx.foldl
    (fun m rj => if m rj.1 = u32Max then Function.update m rj.1 (slot rj.2) else m) m

/-- The body of the loop over the generators of a batch of `num`. -/
def planGenerator (num : ℕ) (s : PlanState) (gi : ℕ × ℕ) : Except String PlanState := do
  let writeMap := claimSlots (fun j => u32 (s.writeStart + u32 (gi.2 + j * num)))
    (a.outputReps gi.1) s.writeMap
  let readMap ← storeAll a.representativeMap.length (fun j => s.readStart + gi.2 + j * num)
    ((a.watchReps gi.1).map writeMap) s.readMap
  let params ← storeAll a.representativeMap.length (fun j => s.paramStart + gi.2 + j * num)
    (a.generator gi.1).params s.params
  return { s with writeMap := writeMap, readMap := readMap, params := params }

/-- One batch of a layer. -/
def planBatch (layer : ℕ) (acc : PlanState × List KernelBatch) (b : String × List ℕ) :
    Except String (PlanState × List KernelBatch) := do
  let num := b.2.length
  let s ← b.2.zipIdx.foldlM (a.planGenerator num) acc.1
  let batch := ⟨layer, b.1, b.2, s.writeStart, s.readStart, s.paramStart, u32 num⟩
  let s' := { s with
    readStart := u32 (s.readStart + u32 (num * a.maxIn b.2))
    writeStart := u32 (s.writeStart + u32 (num * a.maxOut b.2))
    paramStart := u32 (s.paramStart + u32 (num * a.maxParams b.2)) }
  return (s', acc.2 ++ [batch])

/-- One layer: its batches, by id. -/
def planLayer (layer : ℕ → Batches) (acc : PlanState × List (List KernelBatch)) (l : ℕ) :
    Except String (PlanState × List (List KernelBatch)) := do
  let (s, batches) ← (layer l).toList.foldlM (a.planBatch l) (acc.1, [])
  return (s, acc.2 ++ [batches])

/-- The slots of the inputs; the last of two inputs of one representative wins. -/
def inputSlots : ℕ → ℕ :=
  a.inputReps.zipIdx.foldl (fun m ri => Function.update m ri.1 (u32 ri.2)) fun _ => u32Max

def planInit : PlanState where
  writeMap := a.inputSlots
  readMap := fun _ => 0
  params := fun _ => 0
  writeStart := u32 a.inputTargets.length
  readStart := 0
  paramStart := 0

/-- The plan of a schedule. -/
def plan (s : Schedule) : Except String WitnessPlan := do
  let (st, layers) ← (List.range (s.levels.maxLevel + 1)).foldlM (a.planLayer s.layer)
    (a.planInit, [])
  return ⟨layers, st.writeMap, st.readMap, st.params⟩

/-- `trans_map`: the slot of every wire. -/
def transMap (p : WitnessPlan) (x : ℕ) : ℕ := p.writeMap (a.representativeMap.getD x 0)

end BuildArgs

/-! ### Executing a plan -/

/-- A thread of a batch. -/
structure Thread where
  batch : KernelBatch
  tid : ℕ

/-- The threads a layer launches. -/
def threads (layer : List KernelBatch) : List Thread :=
  layer.flatMap fun b => (List.range b.len).map fun tid => ⟨b, tid⟩

/-- The order in which the threads of a layer happen to run. -/
structure ThreadOrder where
  order : List Thread → List Thread
  perm : ∀ l, (order l).Perm l

namespace WitnessPlan

variable {F : Type*} (kernel : String → (ℕ → ℕ) → (ℕ → F) → List F) (p : WitnessPlan)

/-- One thread of a generator kernel: it reads the slots of its dependencies, computes, and
writes its outputs, each with the stride of the batch. -/
def runThread (witness : ℕ → F) (t : Thread) : ℕ → F :=
  let reads := fun j => witness (p.readMap (u32 (t.batch.readStart + t.tid + j * t.batch.len)))
  let params := fun j => p.params (u32 (t.batch.paramsStart + t.tid + j * t.batch.len))
  (kernel t.batch.type params reads).zipIdx.foldl
    (fun w vj => Function.update w (u32 (t.batch.writeStart + t.tid + vj.2 * t.batch.len)) vj.1)
    witness

/-- The layers one after the other. -/
def replay (order : ThreadOrder) (witness : ℕ → F) : ℕ → F :=
  p.layers.foldl
    (fun w layer => (order.order (threads layer)).foldl (p.runThread kernel) w) witness

/-- `upload_inputs`: the inputs take the first slots. -/
def uploadInputs (witness : ℕ → F) (inputs : List F) : ℕ → F :=
  fun k => inputs.getD k (witness k)

end WitnessPlan

/-- `generate_full_witness_kernel`: block `i` is a row, thread `j` a column, and the wires are
stored column by column. -/
def generateFullWitness {F : Type*} [Zero F] (a : BuildArgs) (p : WitnessPlan)
    (witness full : ℕ → F) : ℕ → F :=
  ((List.range a.degree).flatMap fun i => (List.range a.numWires).map fun j => (i, j)).foldl
    (fun full ij =>
      Function.update full (u32 (ij.2 * a.degree + ij.1))
        (if a.transMap p (u32 (ij.1 * a.numWires + ij.2)) = u32Max then 0
        else witness (a.transMap p (u32 (ij.1 * a.numWires + ij.2)))))
    full

end MegaZK
