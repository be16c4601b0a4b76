import Mathlib
import MegaZK.Device

/-! # The challengers

The host `Challenger`, a duplex sponge in overwrite mode, and `ChallengerGpu`, which keeps the
sponge on the device and predicts the fill of its two buffers on the host. Both apply the same
permutation of twelve lanes. -/

namespace MegaZK

variable {F : Type*} [Zero F] (permute : (Fin 12 → F) → Fin 12 → F)

/-- `H::Permutation::RATE`. -/
def rate : ℕ := 8

/-- Overwrite the first `n` lanes. -/
def overwrite (st : Fin 12 → F) (n : ℕ) (buf : ℕ → F) : Fin 12 → F :=
  fun j => if (j : ℕ) < n then buf j else st j

/-- Lane `j` of a state. -/
def lane (st : Fin 12 → F) (j : ℕ) : F := if hj : j < 12 then st ⟨j, hj⟩ else 0

/-! ### The host challenger -/

structure Challenger (F : Type*) where
  spongeState : Fin 12 → F
  inputBuffer : List F
  outputBuffer : List F

namespace Challenger

def new : Challenger F where
  spongeState := fun _ => 0
  inputBuffer := []
  outputBuffer := []

/-- Absorb the buffered inputs and fill the output buffer. -/
def duplexing (c : Challenger F) : Challenger F :=
  let st := permute (overwrite c.spongeState c.inputBuffer.length (c.inputBuffer.getD · 0))
  { spongeState := st
    inputBuffer := []
    outputBuffer := (List.range rate).map (lane st) }

def observeElement (c : Challenger F) (element : F) : Challenger F :=
  let c' : Challenger F :=
    { c with outputBuffer := [], inputBuffer := c.inputBuffer ++ [element] }
  if c'.inputBuffer.length = rate then c'.duplexing permute else c'

def observeElements (c : Challenger F) (elements : List F) : Challenger F :=
  elements.foldl (observeElement permute) c

def getChallenge (c : Challenger F) : F × Challenger F :=
  let c' := if c.inputBuffer ≠ [] ∨ c.outputBuffer = [] then c.duplexing permute else c
  (c'.outputBuffer.getLastD 0, { c' with outputBuffer := c'.outputBuffer.dropLast })

def getNChallenges (c : Challenger F) : ℕ → List F × Challenger F
  | 0 => ([], c)
  | n + 1 =>
    let (x, c') := c.getChallenge permute
    let (xs, c'') := c'.getNChallenges n
    (x :: xs, c'')

end Challenger

/-! ### The device challenger -/

structure ChallengerGpu (F : Type*) where
  spongeState : Fin 12 → F
  inputBuffer : ℕ → F
  outputBuffer : ℕ → F
  inIdx : ℕ
  outIdx : ℕ

namespace ChallengerGpu

/-- The local state of the two kernels. -/
structure Kernel (F : Type*) where
  state : Fin 12 → F
  input : ℕ → F
  output : ℕ → F
  current : ℕ

/-- The device function `duplexing`: absorb `inIdx` cells and clear the input buffer. -/
def duplexing (inIdx : ℕ) (k : Kernel F) : Kernel F :=
  { k with
    state := permute (overwrite k.state inIdx k.input)
    input := fun j => if j < 8 then 0 else k.input j }

/-- The device function `set_output`. -/
def setOutput (k : Kernel F) : Kernel F :=
  { k with output := fun j => if j < 8 then lane k.state j else k.output j }

/-- Iteration `i` of the kernel `observe`. -/
def observeStep (numElements offset : ℕ) (elements : ℕ → F) (k : Kernel F) (i : ℕ) : Kernel F :=
  let k' : Kernel F :=
    { k with
      input := Function.update k.input k.current (elements (u32 (i + offset)))
      current := (k.current + 1) % 8 }
  if k'.current = 0 then
    let k'' := duplexing permute 8 k'
    if numElements - i ≤ 8 then setOutput k'' else k''
  else k'

/-- The kernel `observe`. -/
def observe (g : ChallengerGpu F) (elements : ℕ → F) (numElements offset : ℕ) : Kernel F :=
  (List.range numElements).foldl (observeStep permute numElements offset elements)
    ⟨g.spongeState, g.inputBuffer, g.outputBuffer, g.inIdx⟩

/-- One iteration of the kernel `get`. -/
def getStep (k : Kernel F) : F × Kernel F :=
  let k' : Kernel F :=
    if k.current = 0 then { setOutput (duplexing permute 0 k) with current := 8 } else k
  (k'.output (k'.current - 1), { k' with current := (k'.current + 7) % 8 })

def getLoop (k : Kernel F) : ℕ → List F × Kernel F
  | 0 => ([], k)
  | n + 1 =>
    let (x, k') := getStep permute k
    let (xs, k'') := getLoop k' n
    (x :: xs, k'')

/-- The kernel `get`. The challenges are written from `offset` on in this order. -/
def get (g : ChallengerGpu F) (numChallenges : ℕ) : List F × Kernel F :=
  let k : Kernel F := ⟨g.spongeState, g.inputBuffer, g.outputBuffer, g.outIdx⟩
  let k' : Kernel F :=
    if g.inIdx ≠ 0 ∨ g.outIdx = 0 then
      { setOutput (duplexing permute g.inIdx k) with current := 8 }
    else k
  getLoop permute k' numChallenges

def new : ChallengerGpu F where
  spongeState := fun _ => 0
  inputBuffer := fun _ => 0
  outputBuffer := fun _ => 0
  inIdx := 0
  outIdx := 0

/-- `observe_elements_gpu`. The host indices advance by the length of the whole buffer, and the
second of them is computed from the first after its update. -/
def observeElementsGpu (g : ChallengerGpu F) (elts : DeviceBuffer F) (numElts offset : ℕ) :
    ChallengerGpu F :=
  let k := g.observe permute elts.cell (u32 numElts) (u32 offset)
  let inIdx := u32 (g.inIdx + u32 elts.len) % 8
  let outIdx := if u32 (inIdx + u32 elts.len) ≥ 8 then 8 else g.outIdx
  { spongeState := k.state
    inputBuffer := k.input
    outputBuffer := k.output
    inIdx := inIdx
    outIdx := outIdx }

/-- `get_n_challenges_gpu`. -/
def getNChallengesGpu (g : ChallengerGpu F) (n : ℕ) : List F × ChallengerGpu F :=
  let (xs, k) := g.get permute (u32 n)
  (xs,
    { spongeState := k.state
      inputBuffer := k.input
      outputBuffer := k.output
      inIdx := 0
      outIdx :=
        if g.inIdx ≠ 0 then (8 - u32 n % 8) % 8 else (g.outIdx + 8 - u32 n % 8) % 8 })

end ChallengerGpu

/-! ### Runs of a transcript -/

/-- An operation on a challenger: absorb `numElts` elements of a buffer from `offset` on, or
squeeze `n` elements. -/
inductive Op (F : Type*)
  | observe (elts : DeviceBuffer F) (numElts offset : ℕ)
  | get (n : ℕ)

/-- The elements lie inside the buffer, and at least one element is squeezed. -/
def Op.WellFormed : Op F → Prop
  | .observe elts numElts offset => offset + numElts ≤ elts.len
  | .get n => 1 ≤ n

/-- The elements an observation absorbs. -/
def DeviceBuffer.slice (elts : DeviceBuffer F) (numElts offset : ℕ) : List F :=
  (List.range numElts).map fun i => elts.cell (offset + i)

def Challenger.step (c : Challenger F) : Op F → List F × Challenger F
  | .observe elts numElts offset =>
    ([], c.observeElements permute (elts.slice numElts offset))
  | .get n => c.getNChallenges permute n

def ChallengerGpu.step (g : ChallengerGpu F) : Op F → List F × ChallengerGpu F
  | .observe elts numElts offset => ([], g.observeElementsGpu permute elts numElts offset)
  | .get n => g.getNChallengesGpu permute n

/-- Perform the operations in order and collect the squeezed elements. -/
def Challenger.run (c : Challenger F) : List (Op F) → List F × Challenger F
  | [] => ([], c)
  | op :: ops =>
    let (xs, c') := c.step permute op
    let (ys, c'') := c'.run ops
    (xs ++ ys, c'')

def ChallengerGpu.run (g : ChallengerGpu F) : List (Op F) → List F × ChallengerGpu F
  | [] => ([], g)
  | op :: ops =>
    let (xs, g') := g.step permute op
    let (ys, g'') := g'.run ops
    (xs ++ ys, g'')

end MegaZK
