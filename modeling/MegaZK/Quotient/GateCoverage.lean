import MegaZK.Lib.Fold
import MegaZK.Quotient.Dispatch

/-! # Which gates are evaluated

The dispatch passes over gates without a kernel and reports no error. The witness generator is
stricter: it panics at a generator without a kernel, so that no row of an accepted circuit holds a
gate of the repository whose constraints would be passed over. What remains are gates that are in
the gate set but on no row, and gates that are defined elsewhere. -/

namespace MegaZK

/-! ### Circuits -/

/-- A gate of a circuit: of a type of the repository, or of another type that implements `Gate`. -/
inductive AnyGate
  | repository (g : GateType)
  | foreign (id : String) (numConstraints : ℕ) (generators : List String)
  deriving DecidableEq

namespace AnyGate

/-- `id`. -/
def id (field : String) (d : ℕ) : AnyGate → String
  | repository g => g.id field d
  | foreign id _ _ => id

/-- `num_constraints`. -/
def numConstraints (d : ℕ) : AnyGate → ℕ
  | repository g => g.numConstraints d
  | foreign _ numConstraints _ => numConstraints

/-- The ids of `generators`. -/
def generators : AnyGate → List String
  | repository g => g.generators
  | foreign _ _ generators => generators

end AnyGate

/-- A row of the circuit. The slots of an incomplete row are filled from the first one. -/
structure GateRow where
  gate : AnyGate
  filled : Option ℕ
  filled_pos : ∀ op, filled = some op → 0 < op

/-- The generators of a row that are kept. -/
def GateRow.generators (row : GateRow) : List String :=
  match row.filled with
  | none => row.gate.generators
  | some op => row.gate.generators.take op

/-- `gates`, `gate_instances` and the other `generators` of a circuit builder. -/
structure GateCircuit where
  gates : List AnyGate
  rows : List GateRow
  gadgets : List String
  gate_mem : ∀ row ∈ rows, row.gate ∈ gates

namespace GateCircuit

/-- The ids of all generators. -/
def generators (c : GateCircuit) : List String := c.gadgets ++ c.rows.flatMap GateRow.generators

/-- The keys of `NEW_FUNC_MAP`. -/
def newFuncMapKeys : List String :=
  ["ArithmeticBaseGenerator", "RandomValueGenerator", "ConstantGenerator", "PoseidonGenerator",
    "U32AddManyGenerator", "U32ArithmeticGenerator", "ComparisonGenerator",
    "U32InterleaveGenerator", "U32RangeCheckGenerator", "U32SubtractionGenerator",
    "UninterleaveToU32Generator", "BaseSumGenerator", "BaseSplitGenerator",
    "RandomAccessGenerator", "CurvePointDecompressionGenerator", "NonNativeAdditionGenerator",
    "NonNativeSubtractionGenerator", "NonNativeMultiplicationGenerator",
    "NonNativeInverseGenerator", "EqualityGenerator", "BigUintDivRemGenerator",
    "GLVDecompositionGenerator"]

/-- What `build_gpu` asks of the generators: there is one, and each has a kernel. -/
structure Accepted (c : GateCircuit) : Prop where
  nonempty : c.generators ≠ []
  kernels : ∀ id ∈ c.generators, id ∈ newFuncMapKeys

end GateCircuit

/-! ### Dispatch -/

/-- The names that `evaluate_gate` has a kernel for. -/
def gateFunctionNames : List String :=
  ["NoopGate", "ConstantGate", "PublicInputGate", "ArithmeticGate", "PoseidonGate", "BaseSumGate",
    "U32InterleaveGate", "UninterleaveToU32Gate", "U32AddManyGate", "U32ArithmeticGate",
    "U32SubtractionGate", "ComparisonGate", "U32RangeCheckGate", "RandomAccessGate"]

variable (field : String) (d : ℕ)

/-- The gate is not passed over. One of the repository is launched with the values of its fields;
for another one a kernel is launched or the proof fails. -/
def AnyGate.Evaluated : AnyGate → Prop
  | repository g => ∃ l, g.launch = some l ∧ evaluateGate (g.id field d) = .ok (some l)
  | foreign id _ _ => evaluateGate id ≠ .ok none

/-- A gate of the repository is on a row or has a kernel, and its fields fit a `u32`; another one
bears a name with a kernel. -/
def GateCircuit.Covers (c : GateCircuit) : AnyGate → Prop
  | .repository g => ((∃ row ∈ c.rows, row.gate = .repository g) ∨ g.launch.isSome) ∧
      ∀ l, g.launch = some l → l.InRange
  | .foreign id _ _ => ∃ name ∈ gateFunctionNames, gateTypeName id = some name

lemma bind_ne_none {α : Type} {e : Except String α} {f : α → Except String (Option GateLaunch)}
    (h : ∀ x, f x ≠ .ok none) : (e >>= f) ≠ .ok none := by
  cases e with
  | error e => exact fun hnone => by cases hnone
  | ok x => exact h x

lemma gateFunction_eq_none_iff {gateType : String} {gateName : List Char} :
    gateFunction gateType gateName = .ok none ↔ gateType ∉ gateFunctionNames := by
  have hok : ∀ l : GateLaunch, (.ok (some l) : Except String (Option GateLaunch)) ≠ .ok none := by
    rintro l ⟨⟩
  unfold gateFunction
  split
  case h_15 =>
    simp only [gateFunctionNames, List.mem_cons, List.not_mem_nil, or_false, true_iff, not_or]
    repeat' constructor
    all_goals assumption
  case h_1 | h_3 | h_5 => exact iff_of_false (hok _) (by decide)
  case h_9 | h_12 =>
    exact iff_of_false (bind_ne_none fun _ => bind_ne_none fun _ => hok _) (by decide)
  case h_14 =>
    exact iff_of_false (bind_ne_none fun _ => bind_ne_none fun _ => bind_ne_none fun _ => hok _)
      (by decide)
  all_goals exact iff_of_false (bind_ne_none fun _ => hok _) (by decide)

lemma evaluateGate_eq_none_iff {gateName : String} :
    evaluateGate gateName = .ok none ↔
      ¬ ∃ name ∈ gateFunctionNames, gateTypeName gateName = some name := by
  rw [evaluateGate]
  cases h : gateTypeName gateName with
  | none => simp
  | some gateType =>
    rw [gateFunction_eq_none_iff]
    simp

/-! ### Runs -/

/-- Once the loop over the gates is through, every dispatched gate is launched. -/
lemma launchGates_spec {gateNames : List String} {launches : List GateLaunch}
    (h : launchGates gateNames = .ok launches) :
    ∀ gateName ∈ gateNames, ∀ l, evaluateGate gateName = .ok (some l) → l ∈ launches := by
  have hrule := (Fold.foldlM_rule
    (fun done (launches : List GateLaunch) => ∀ gateName ∈ done, ∀ l,
      evaluateGate gateName = .ok (some l) → l ∈ launches)
    (fun _ gateName => ∃ launch, evaluateGate gateName = .ok launch) ?_ ?_ gateNames
    (d := []) (by simp)).2 launches h
  · exact hrule
  · intro done s gateName _
    cases hg : evaluateGate gateName with
    | error e => simp [bind, Except.bind]
    | ok launch => simp [bind, Except.bind]
  · intro done s gateName s' hs hstep name hname l hl
    cases hg : evaluateGate gateName with
    | error e =>
      rw [hg] at hstep
      cases hstep
    | ok launch =>
      rw [hg] at hstep
      cases hstep
      rw [List.mem_append] at hname ⊢
      obtain hdone | hlast := hname
      · exact .inl (hs name hdone l hl)
      · rw [List.mem_singleton.mp hlast, hg] at hl
        cases hl
        exact .inr (by simp)

/-- A gate of the repository is launched with its fields in every run that ends. -/
lemma AnyGate.Evaluated.launched {field : String} {d : ℕ} {gates : List AnyGate} {g : GateType}
    (h : (repository g).Evaluated field d) (hg : .repository g ∈ gates)
    {launches : List GateLaunch}
    (hrun : launchGates (gates.map (AnyGate.id field d)) = .ok launches) :
    ∃ l, g.launch = some l ∧ l ∈ launches := by
  obtain ⟨l, hlaunch, heval⟩ := h
  exact ⟨l, hlaunch, launchGates_spec hrun _ (List.mem_map_of_mem hg) l heval⟩

/-! ### Coverage -/

/-- A gate of the repository without a kernel has a constraint only if each of its rows has a
generator without a kernel. -/
lemma GateType.generators_of_launch_eq_none {g : GateType} (hlaunch : g.launch = none)
    (hpos : 0 < g.numConstraints d) :
    ∃ id, id ∉ GateCircuit.newFuncMapKeys ∧ ∃ n, g.generators = List.replicate (n + 1) id := by
  have hmul : ∀ {n m : ℕ}, 0 < n * m → ∃ k, n = k + 1 := fun h =>
    Nat.exists_eq_succ_of_ne_zero (Nat.pos_of_mul_pos_right h).ne'
  cases g with
  | arithmeticExtension numOps =>
    obtain ⟨n, rfl⟩ := hmul hpos
    exact ⟨"ArithmeticExtensionGenerator", by decide, n, rfl⟩
  | mulExtension numOps =>
    obtain ⟨n, rfl⟩ := hmul hpos
    exact ⟨"MulExtensionGenerator", by decide, n, rfl⟩
  | uninterleaveToB32 numOps =>
    obtain ⟨n, rfl⟩ := hmul hpos
    exact ⟨"UninterleaveToB32Generator", by decide, n, rfl⟩
  | cosetInterpolation _ _ _ => exact ⟨"InterpolationGenerator", by decide, 0, rfl⟩
  | exponentiation _ => exact ⟨"ExponentiationGenerator", by decide, 0, rfl⟩
  | poseidonMds => exact ⟨"PoseidonMdsGenerator", by decide, 0, rfl⟩
  | reducing _ => exact ⟨"ReducingGenerator", by decide, 0, rfl⟩
  | reducingExtension _ => exact ⟨"ReducingExtensionGenerator", by decide, 0, rfl⟩
  | lookup _ _ => exact absurd hpos (lt_irrefl 0)
  | lookupTable _ _ _ => exact absurd hpos (lt_irrefl 0)
  | _ => cases hlaunch

lemma GateRow.mem_generators {row : GateRow} {n : ℕ} {id : String}
    (h : row.gate.generators = List.replicate (n + 1) id) : id ∈ row.generators := by
  rw [GateRow.generators]
  cases hfilled : row.filled with
  | none => simp [h]
  | some op =>
    have hpos := row.filled_pos op hfilled
    obtain ⟨op, rfl⟩ := Nat.exists_eq_succ_of_ne_zero hpos.ne'
    simp [h, List.replicate_succ]

/-- On a row of an accepted circuit, every gate of the repository with a constraint has a kernel. -/
lemma GateCircuit.Accepted.launch_isSome {c : GateCircuit} (h : c.Accepted) {row : GateRow}
    (hrow : row ∈ c.rows) {g : GateType} (hg : row.gate = .repository g)
    (hpos : 0 < g.numConstraints d) : g.launch.isSome := by
  cases hlaunch : g.launch with
  | some l => rfl
  | none =>
    obtain ⟨id, hid, n, hgenerators⟩ := g.generators_of_launch_eq_none d hlaunch hpos
    have hmem : id ∈ row.generators := by
      refine GateRow.mem_generators (n := n) ?_
      rw [hg]
      exact hgenerators
    refine absurd (h.kernels id ?_) hid
    exact List.mem_append_right _ (List.mem_flatMap.mpr ⟨row, hrow, hmem⟩)

/-- A circuit of additions and hashes. -/
def hashCircuit : GateCircuit where
  gates := [.repository .publicInput, .repository (.arithmetic 20), .repository .poseidon]
  rows := [⟨.repository .publicInput, none, by simp⟩,
    ⟨.repository (.arithmetic 20), some 3, by simp⟩, ⟨.repository .poseidon, none, by simp⟩]
  gadgets := []
  gate_mem := by decide

/-- A gate for `x ^ 3 = y` that is not of the repository, and checks given wires. -/
def cubeCircuit : GateCircuit where
  gates := [.repository (.arithmetic 20), .foreign "CubeGate" 1 []]
  rows := [⟨.repository (.arithmetic 20), some 2, by simp⟩, ⟨.foreign "CubeGate" 1 [], none, by simp⟩]
  gadgets := []
  gate_mem := by decide

/-- `add_gate_to_gate_set` without a row. -/
def gateSetCircuit : GateCircuit where
  gates := [.repository (.arithmetic 20), .repository (.arithmeticExtension 10)]
  rows := [⟨.repository (.arithmetic 20), some 2, by simp⟩]
  gadgets := []
  gate_mem := by decide

end MegaZK
