import MegaZK.Assembly.Passes
import MegaZK.Challenger.Tracking
import MegaZK.Lib.Fold
import MegaZK.Query.Leaves

/-! # Proving twice

`GpuCircuitData::prove` on one object, input after input. The caps of the FRI rounds are pushed to
a vector of the host that stays with the object, and no step takes them out again. -/

namespace MegaZK

variable {F σ : Type}

/-! ### Source -/

/-- What a prove may change: the vector of caps in `ProofAssemblyBuffers`, the challenger, whether
the plan still has its scatter map, and the memory of the device. -/
structure GpuProverSetup (F σ : Type) where
  friCommitPhaseCaps : List (List (List F))
  challenger : ChallengerGpu F
  scatter : Bool
  device : σ

/-- A setup as it is built. -/
def GpuProverSetup.new [Zero F] (device : σ) : GpuProverSetup F σ := ⟨[], .new, true, device⟩

/-- The kernels of a prove, from the upload of the inputs to the queries: what they leave in the
buffers, and for the next prove. -/
abbrev ProveKernels (F σ : Type) :=
  Bool → ChallengerGpu F → σ → List F → Option (ProofCells F × ChallengerGpu F × σ)

namespace CommonCircuitData

variable (c : CommonCircuitData)

/-- The proof that is assembled from the buffers. -/
def proofFrom (cells : ProofCells F) (caps : List (List (List F))) :
    Option (ProofWithPublicInputs F) := do
  let b := c.assemblyBuffers cells caps
  let treeLen := (8 * 2 ^ c.degreeBits) <<< c.rateBits
  let wiresCap ← copyCap ⟨treeLen, cells.wiresTree⟩ c.capHeight
  let plonkZsPartialProductsCap ← copyCap ⟨treeLen, cells.partialProductsTree⟩ c.capHeight
  let quotientPolysCap ← copyCap ⟨treeLen, cells.quotientsTree⟩ c.capHeight
  let openings ← getOpeningSet c.counts c.assemblyConfig b.openings
  let openingProof ← b.getFriProof c.counts c.assemblyConfig
  pure
    { proof := { wiresCap, plonkZsPartialProductsCap, quotientPolysCap, openings, openingProof }
      publicInputs := (List.range c.numPublicInputs).map cells.publicInputs }

variable (witnessInputCount : ℕ) (kernels : ProveKernels F σ)

/-- `GpuCircuitData::prove`, if it does not panic. The scatter map is released after the witness is
generated. -/
def prove (s : GpuProverSetup F σ) (inputs : List F) :
    Option (Except String (ProofWithPublicInputs F) × GpuProverSetup F σ) :=
  let got := inputs.length
  if got ≠ witnessInputCount then
    some (.error s!"GPU witness input length mismatch: expected {witnessInputCount}, got {got}", s)
  else do
    let (cells, challenger, device) ← kernels s.scatter s.challenger s.device inputs
    let caps ← c.friCommittedTrees cells
    let friCommitPhaseCaps := s.friCommitPhaseCaps ++ caps
    let proof ← c.proofFrom cells friCommitPhaseCaps
    return (.ok proof, { friCommitPhaseCaps, challenger, scatter := false, device })

/-- The calls on one object: what each returns. There are no more after a panic. -/
def proveAll : GpuProverSetup F σ → List (List F) →
    List (Option (Except String (ProofWithPublicInputs F)))
  | _, [] => []
  | s, inputs :: rest =>
    match c.prove witnessInputCount kernels s inputs with
    | none => none :: rest.map fun _ => none
    | some (result, s) => some result :: proveAll s rest

/-- Every call returns what a fresh object would. -/
def ProvesLikeFresh (fresh : GpuProverSetup F σ) (inputs : List (List F)) : Prop :=
  c.proveAll witnessInputCount kernels fresh inputs =
    inputs.map fun x => (c.prove witnessInputCount kernels fresh x).map Prod.fst

/-! ### The caps -/

variable {c witnessInputCount kernels}

lemma firstProof_eq (cells : ProofCells F) :
    c.firstProof cells = (c.friCommittedTrees cells).bind (c.proofFrom cells) := rfl

lemma proofFrom_caps {cells : ProofCells F} {caps : List (List (List F))}
    {p : ProofWithPublicInputs F} (h : c.proofFrom cells caps = some p) :
    p.proof.openingProof.commitPhaseMerkleCaps = caps := by
  simp only [proofFrom, Option.bind_eq_bind, Option.bind_eq_some_iff] at h
  obtain ⟨_, -, _, -, _, -, _, -, openingProof, hfri, hp⟩ := h
  obtain ⟨rounds, -, hfri⟩ := Option.bind_eq_some_iff.mp hfri
  cases hfri
  cases hp
  rfl

lemma length_friCommitPartLensFrom (digestsLen leavesLen : ℕ) (arities : List ℕ) :
    (friCommitPartLensFrom digestsLen leavesLen arities).length = arities.length := by
  induction arities generalizing digestsLen leavesLen with
  | nil => rfl
  | cons a arities ih => rw [friCommitPartLensFrom, List.length_cons, ih, List.length_cons]

/-- There is a cap for every reduction, and a reduction. -/
lemma length_friCommittedTrees {cells : ProofCells F} {caps : List (List (List F))}
    (h : c.friCommittedTrees cells = some caps) :
    caps.length = c.reductionArityBits.length ∧ 0 < caps.length := by
  obtain ⟨caps', hcaps, h⟩ := Option.bind_eq_some_iff.mp h
  split_ifs at h with hnil
  cases h
  have hlen := Fold.length_of_mapM_eq_some hcaps
  rw [List.length_zipIdx, length_friCommitPartLensFrom] at hlen
  exact ⟨hlen, hlen ▸ List.length_pos_iff.mpr hnil⟩

/-! ### One call -/

variable {s s' : GpuProverSetup F σ} {x : List F}

/-- Inputs of another length are refused whatever came before. -/
lemma prove_of_ne (hx : x.length ≠ witnessInputCount) :
    c.prove witnessInputCount kernels s x =
      some (.error s!"GPU witness input length mismatch: expected {witnessInputCount}, got {x.length}",
        s) := if_pos hx

/-- A proof takes all the caps that were pushed, those of its own rounds last. -/
lemma prove_of_eq {result : Except String (ProofWithPublicInputs F)}
    (hx : x.length = witnessInputCount)
    (h : c.prove witnessInputCount kernels s x = some (result, s')) :
    ∃ p, result = .ok p ∧
      p.proof.openingProof.commitPhaseMerkleCaps.length =
        s.friCommitPhaseCaps.length + c.reductionArityBits.length ∧
      s'.friCommitPhaseCaps.length =
        s.friCommitPhaseCaps.length + c.reductionArityBits.length ∧
      0 < c.reductionArityBits.length := by
  rw [prove, if_neg (not_not.mpr hx)] at h
  obtain ⟨⟨cells, challenger, device⟩, -, h⟩ := Option.bind_eq_some_iff.mp h
  obtain ⟨caps, hcaps, h⟩ := Option.bind_eq_some_iff.mp h
  obtain ⟨p, hp, h⟩ := Option.bind_eq_some_iff.mp h
  obtain ⟨hlen, hpos⟩ := length_friCommittedTrees hcaps
  cases h
  rw [hlen] at hpos
  refine ⟨p, rfl, ?_, ?_, hpos⟩
  · rw [proofFrom_caps hp, List.length_append, hlen]
  · rw [List.length_append, hlen]

/-! ### All calls -/

variable {fresh : GpuProverSetup F σ} {inputs : List (List F)}

lemma proveAll_of_ne (h : ∀ x ∈ inputs, x.length ≠ witnessInputCount) :
    c.proveAll witnessInputCount kernels s inputs =
      inputs.map fun x => (c.prove witnessInputCount kernels fresh x).map Prod.fst := by
  induction inputs with
  | nil => rfl
  | cons x inputs ih =>
    obtain ⟨hx, hrest⟩ := List.forall_mem_cons.mp h
    rw [proveAll, List.map_cons, prove_of_ne hx, prove_of_ne hx]
    exact congrArg (List.cons _) (ih hrest)

/-- After a proof the next one has too many caps. -/
lemma proveAll_ne (hcaps : fresh.friCommitPhaseCaps = []) (hs : s.friCommitPhaseCaps ≠ [])
    (hfresh : ∀ x ∈ inputs, (c.prove witnessInputCount kernels fresh x).isSome)
    (hx : ∃ x ∈ inputs, x.length = witnessInputCount) :
    c.proveAll witnessInputCount kernels s inputs ≠
      inputs.map fun x => (c.prove witnessInputCount kernels fresh x).map Prod.fst := by
  induction inputs with
  | nil =>
    obtain ⟨x, hmem, -⟩ := hx
    cases hmem
  | cons y inputs ih =>
    obtain ⟨hy, hfresh⟩ := List.forall_mem_cons.mp hfresh
    intro heq
    by_cases hlen : y.length = witnessInputCount
    · obtain ⟨⟨result, fresh'⟩, hprove⟩ := Option.isSome_iff_exists.mp hy
      obtain ⟨p, rfl, hp, -, -⟩ := prove_of_eq hlen hprove
      rw [proveAll, List.map_cons, hprove] at heq
      cases hagain : c.prove witnessInputCount kernels s y with
      | none =>
        rw [hagain] at heq
        cases heq
      | some again =>
        obtain ⟨result, s'⟩ := again
        obtain ⟨p', rfl, hp', -, -⟩ := prove_of_eq hlen hagain
        rw [hagain] at heq
        obtain rfl : p' = p := Except.ok.inj (Option.some.inj (List.cons.inj heq).1)
        rw [hp, hcaps, List.length_nil] at hp'
        have hpos := List.length_pos_iff.mpr hs
        omega
    · rw [proveAll, List.map_cons, prove_of_ne hlen, prove_of_ne hlen] at heq
      refine ih hfresh ?_ (List.cons.inj heq).2
      obtain ⟨x, hmem, hx⟩ := hx
      rcases List.mem_cons.mp hmem with rfl | hmem
      · exact absurd hx hlen
      · exact ⟨x, hmem, hx⟩

/-- Two proofs on one object: the second one is not the one of a fresh object. -/
lemma provesLikeFresh_iff_countP (hcaps : fresh.friCommitPhaseCaps = [])
    (hfresh : ∀ x ∈ inputs, (c.prove witnessInputCount kernels fresh x).isSome) :
    c.ProvesLikeFresh witnessInputCount kernels fresh inputs ↔
      inputs.countP (fun x => x.length = witnessInputCount) ≤ 1 := by
  induction inputs with
  | nil => exact iff_of_true rfl (Nat.zero_le 1)
  | cons x inputs ih =>
    obtain ⟨hx, hrest⟩ := List.forall_mem_cons.mp hfresh
    rw [ProvesLikeFresh, proveAll, List.map_cons, List.countP_cons]
    by_cases hlen : x.length = witnessInputCount
    · obtain ⟨⟨result, s⟩, hprove⟩ := Option.isSome_iff_exists.mp hx
      obtain ⟨p, rfl, -, hpushed, hpos⟩ := prove_of_eq hlen hprove
      have hs : s.friCommitPhaseCaps ≠ [] := List.length_pos_iff.mp (by omega)
      have hone : ∀ n, n + 1 ≤ 1 ↔ n = 0 := by omega
      rw [hprove, if_pos (decide_eq_true hlen), hone, List.countP_eq_zero]
      constructor
      · intro heq y hy hylen
        exact proveAll_ne hcaps hs hrest ⟨y, hy, of_decide_eq_true hylen⟩ (List.cons.inj heq).2
      · intro hnone
        refine congrArg (List.cons _) (proveAll_of_ne fun y hy hylen => ?_)
        exact hnone y hy (decide_eq_true hylen)
    · rw [if_neg (by simpa using hlen), Nat.add_zero, ← ih hrest, ProvesLikeFresh,
        prove_of_ne hlen]
      exact List.cons_inj_right _

/-- The first prove of an object is the first proof of its kernels. -/
lemma prove_new [Zero F] {device : σ} (hx : x.length = witnessInputCount) :
    (c.prove witnessInputCount kernels (.new device) x).map Prod.fst =
      (kernels true .new device x).bind fun left => (c.firstProof left.1).map .ok := by
  rw [prove, if_neg (not_not.mpr hx)]
  cases hleft : kernels true .new device x with
  | none => simp [GpuProverSetup.new, hleft]
  | some left =>
    simp only [GpuProverSetup.new, hleft, List.nil_append, firstProof_eq, Option.bind_eq_bind,
      Option.bind_some]
    cases c.friCommittedTrees left.1 with
    | none => rfl
    | some caps =>
      simp only [Option.bind_some]
      cases c.proofFrom left.1 caps with
      | none => rfl
      | some p => rfl

/-- Kernels that leave zero everywhere. -/
def zeroKernels : ProveKernels GoldilocksField Unit := fun _ challenger device _ =>
  some (⟨0, 0, 0, 0, 0, 0, 0, 0, 0, 0, 0, 0⟩, challenger, device)

lemma standardRecursion_prove_isSome (x : List GoldilocksField) :
    (standardRecursion.prove 1 zeroKernels (.new ()) x).isSome := by
  by_cases hx : x.length = 1
  · obtain ⟨p, hp, -⟩ := firstProof_spec (c := standardRecursion) (F := GoldilocksField)
      ⟨0, 0, 0, 0, 0, 0, 0, 0, 0, 0, 0, 0⟩ ⟨by decide, by decide, by decide⟩
    rw [← Option.isSome_map (f := Prod.fst), prove_new hx]
    simp only [zeroKernels, Option.bind_some, hp, Option.map_some, Option.isSome_some]
  · rw [prove_of_ne hx]
    rfl

end CommonCircuitData

end MegaZK
