import Mathlib
import MegaZK.Goldilocks
import MegaZK.Poseidon.Permutation
import MegaZK.Quotient.Constraints

/-! # The Poseidon gate

`poseidon_generator_new_kernel` fills the wires of a row, `poseidon_gate_partial` checks them. -/

namespace MegaZK.Poseidon

variable {F : Type} [Field F] (rc : ℕ → Fin 12 → F)

/-! ### Wires -/

/-- `wire_output`. -/
def wireOutput (i : ℕ) : ℕ := 12 + i

/-- `WIRE_SWAP`. -/
def wireSwap : ℕ := 2 * 12

/-- `START_DELTA`. -/
def startDelta : ℕ := 2 * 12 + 1

/-- `wire_delta`. -/
def wireDelta (i : ℕ) : ℕ := startDelta + i

/-- `START_FULL_0`. -/
def startFull0 : ℕ := startDelta + 4

/-- `wire_full_sbox_0`. -/
def wireFullSbox0 (round i : ℕ) : ℕ := startFull0 + 12 * (round - 1) + i

/-- `START_PARTIAL`. -/
def startPartial : ℕ := startFull0 + 12 * (halfNFullRounds - 1)

/-- `wire_partial_sbox`. -/
def wirePartialSbox (round : ℕ) : ℕ := startPartial + round

/-- `START_FULL_1`. -/
def startFull1 : ℕ := startPartial + nPartialRounds

/-- `wire_full_sbox_1`. -/
def wireFullSbox1 (round i : ℕ) : ℕ := startFull1 + 12 * round + i

/-- The columns of the s-box inputs of some rounds. -/
def sboxColumns (column : ℕ → ℕ → ℕ) (rounds : List ℕ) : List ℕ :=
  rounds.flatMap fun r => List.ofFn fun i : Fin 12 => column r i

/-- The columns of `PoseidonGenerator::output_targets`. -/
def outputTargets : List ℕ :=
  (List.range 4).map wireDelta ++
    (sboxColumns wireFullSbox0 (List.range' 1 (halfNFullRounds - 1)) ++
      ((List.range nPartialRounds).map wirePartialSbox ++
        (sboxColumns wireFullSbox1 (List.range halfNFullRounds) ++
          List.ofFn fun i : Fin 12 => wireOutput i)))

/-! ### Generator -/

/-- The full rounds of the generator from round `r` on: what it writes, in the rounds that `writes`
says, and the state it ends with. -/
def generateFullRounds (writes : ℕ → Bool) : ℕ → ℕ → ℕ → State F → List F × State F
  | 0, _, _, state => ([], state)
  | n + 1, r, roundCtr, state =>
    let sboxIn := applyRoundConstants rc state roundCtr
    let rest := generateFullRounds writes n (r + 1) (roundCtr + 1)
      (applyMdsMatrixNew (applyNonLinearity sboxIn))
    ((if writes r then List.ofFn sboxIn else []) ++ rest.1, rest.2)

/-- The partial rounds of the generator from round `r` on. -/
def generatePartialRounds : ℕ → ℕ → State F → List F × State F
  | 0, _, state => ([], state)
  | n + 1, r, state =>
    let rest := generatePartialRounds n (r + 1) (partialRoundOptimized state (r + halfNFullRounds))
    (state 0 :: rest.1, rest.2)

/-- The first eight elements change places where the word of the swap wire is one. -/
def swapState (swap : ℕ) (state : State F) : State F :=
  if swap = 1 then fun i =>
    if (i : ℕ) < 4 then state (i + 4) else if (i : ℕ) < 8 then state (i - 4) else state i
  else state

/-- The values that a thread of `poseidon_generator_new_kernel` writes, in their order. -/
def poseidonGeneratorNew (inputs : State F) (swap : ℕ) : List F :=
  let deltas := (List.range 4).map fun i =>
    (swap : F) * (inputs (Fin.ofNat 12 (i + 4)) - inputs (Fin.ofNat 12 i))
  let full0 := generateFullRounds rc (· ≠ 0) halfNFullRounds 0 0 (swapState swap inputs)
  let partials := generatePartialRounds nPartialRounds 0 (partialRoundsInit full0.2)
  let full1 := generateFullRounds rc (fun _ => true) halfNFullRounds 0
    (halfNFullRounds + nPartialRounds) partials.2
  deltas ++ (full0.1 ++ (partials.1 ++ (full1.1 ++ List.ofFn full1.2)))

/-! ### Constraints -/

/-- The full rounds of the gate from round `r` on: its constraints, in the rounds that `checks`
says, and the state it ends with. It goes on with the wires it has checked. -/
def checkFullRounds (checks : ℕ → Bool) (sboxIn : ℕ → State F) :
    ℕ → ℕ → ℕ → State F → List F × State F
  | 0, _, _, state => ([], state)
  | n + 1, r, roundCtr, state =>
    let state := applyRoundConstants rc state roundCtr
    let cons := if checks r then List.ofFn fun i => state i - sboxIn r i else []
    let rest := checkFullRounds checks sboxIn n (r + 1) (roundCtr + 1)
      (applyMdsMatrixNew (applyNonLinearity (if checks r then sboxIn r else state)))
    (cons ++ rest.1, rest.2)

/-- The partial rounds of the gate from round `r` on. -/
def checkPartialRounds (sboxIn : ℕ → F) : ℕ → ℕ → State F → List F × State F
  | 0, _, state => ([], state)
  | n + 1, r, state =>
    let rest := checkPartialRounds sboxIn n (r + 1)
      (partialRoundOptimized (Function.update state 0 (sboxIn r)) (r + 4))
    ((state 0 - sboxIn r) :: rest.1, rest.2)

/-- The state that the gate starts from: left inputs plus, right inputs minus the deltas. -/
def checkedState (wire : ℕ → F) : State F := fun i =>
  if (i : ℕ) < 4 then wire i + wire (i + 25)
  else if (i : ℕ) < 8 then wire i - wire (i - 4 + 25)
  else wire i

/-- The constraints of `poseidon_gate_partial`, in their order. -/
def poseidonGateConstraints (wire : ℕ → F) : List F :=
  let swap := wire 24
  let deltas := (List.range 4).map fun i => swap * (wire (i + 4) - wire i) - wire (i + 25)
  let full0 := checkFullRounds rc (· ≠ 0) (fun r i => wire (29 + 12 * (r - 1) + i)) 4 0 0
    (checkedState wire)
  let partials := checkPartialRounds (fun r => wire (29 + 12 * 3 + r)) 22 0
    (partialRoundsInit full0.2)
  let full1 := checkFullRounds rc (fun _ => true) (fun r i => wire (87 + 12 * r + i)) 4 0 26
    partials.2
  let outputs := List.ofFn fun i : Fin 12 => full1.2 i - wire (i + 12)
  swap * (swap + -1) :: (deltas ++ (full0.1 ++ (partials.1 ++ (full1.1 ++ outputs))))

/-- The wires of a row after the generator: its inputs, the word of the swap wire and what it
wrote to its targets. -/
structure GeneratedRow (inputs : State F) (swap : ℕ) (wire : ℕ → F) : Prop where
  input : ∀ i : Fin 12, wire i = inputs i
  swapWire : wire wireSwap = swap
  output : outputTargets.map wire = poseidonGeneratorNew rc inputs swap

/-! ### The gate accepts what the generator writes -/

section Rounds

variable {rc} {wire : ℕ → F}

lemma length_generateFullRounds (writes : ℕ → Bool) (n r roundCtr : ℕ) (state : State F) :
    (generateFullRounds rc writes n r roundCtr state).1.length =
      12 * ((List.range' r n).filter writes).length := by
  induction n generalizing r roundCtr state with
  | zero => rfl
  | succ n ih =>
    simp only [generateFullRounds, List.length_append, ih, List.range'_succ]
    cases hwrites : writes r with
    | false => simp [hwrites]
    | true =>
      simp [hwrites]
      ring

lemma length_sboxColumns (column : ℕ → ℕ → ℕ) (rounds : List ℕ) :
    (sboxColumns column rounds).length = 12 * rounds.length := by
  induction rounds with
  | nil => rfl
  | cons r rounds ih =>
    rw [sboxColumns, List.flatMap_cons, List.length_append, ← sboxColumns, ih, List.length_ofFn,
      List.length_cons]
    ring

lemma length_generatePartialRounds (n r : ℕ) (state : State F) :
    (generatePartialRounds n r state).1.length = n := by
  induction n generalizing r state with
  | zero => rfl
  | succ n ih => simp [generatePartialRounds, ih]

/-- Where the wires hold the s-box inputs that the generator wrote, the gate's full rounds find
their constraints zero and reach the generator's state. -/
lemma checkFullRounds_eq {writes : ℕ → Bool} (column : ℕ → ℕ → ℕ) {n r roundCtr : ℕ}
    {state : State F}
    (h : (sboxColumns column ((List.range' r n).filter writes)).map wire =
      (generateFullRounds rc writes n r roundCtr state).1) :
    (∀ cons ∈ (checkFullRounds rc writes (fun r i => wire (column r i)) n r roundCtr state).1,
      cons = 0) ∧
      (checkFullRounds rc writes (fun r i => wire (column r i)) n r roundCtr state).2 =
        (generateFullRounds rc writes n r roundCtr state).2 := by
  induction n generalizing r roundCtr state with
  | zero => exact ⟨by simp [checkFullRounds], rfl⟩
  | succ n ih =>
    rw [List.range'_succ] at h
    simp only [generateFullRounds, checkFullRounds] at h ⊢
    cases hwrites : writes r with
    | false =>
      rw [List.filter_cons_of_neg (by simp [hwrites])] at h
      simp only [hwrites, Bool.false_eq_true, if_false, List.nil_append] at h ⊢
      exact ih h
    | true =>
      rw [List.filter_cons_of_pos hwrites, sboxColumns, List.flatMap_cons, List.map_append] at h
      simp only [hwrites, if_true] at h ⊢
      obtain ⟨hround, hrest⟩ := List.append_inj h (by simp)
      have hsbox : (fun i : Fin 12 => wire (column r i)) =
          applyRoundConstants rc state roundCtr := by
        rw [List.map_ofFn] at hround
        exact List.ofFn_injective hround
      obtain ⟨hzero, hstate⟩ := ih hrest
      simp only [hsbox]
      refine ⟨?_, hstate⟩
      intro cons hcons
      rcases List.mem_append.mp hcons with hcons | hcons
      · obtain ⟨i, rfl⟩ := List.mem_ofFn.mp hcons
        rw [← congrFun hsbox i, sub_self]
      · exact hzero cons hcons

lemma checkPartialRounds_eq (column : ℕ → ℕ) {n r : ℕ} {state : State F}
    (h : ((List.range' r n).map column).map wire = (generatePartialRounds n r state).1) :
    (∀ cons ∈ (checkPartialRounds (fun r => wire (column r)) n r state).1, cons = 0) ∧
      (checkPartialRounds (fun r => wire (column r)) n r state).2 =
        (generatePartialRounds n r state).2 := by
  induction n generalizing r state with
  | zero => exact ⟨by simp [checkPartialRounds], rfl⟩
  | succ n ih =>
    simp only [List.range'_succ, List.map_cons, generatePartialRounds, List.cons.injEq] at h
    obtain ⟨hsbox, hrest⟩ := h
    simp only [checkPartialRounds, generatePartialRounds, hsbox, Function.update_eq_self,
      List.mem_cons, forall_eq_or_imp]
    obtain ⟨hzero, hstate⟩ := ih hrest
    exact ⟨⟨sub_self _, hzero⟩, hstate⟩

/-! ### The generator computes the permutation -/

lemma generateFullRounds_eq (writes : ℕ → Bool) (n r roundCtr : ℕ) (state : State F) :
    (generateFullRounds rc writes n r roundCtr state).2 = fullRounds rc n state roundCtr := by
  induction n generalizing r roundCtr state with
  | zero => rfl
  | succ n ih =>
    simp only [generateFullRounds, fullRounds, ih, applyMdsMatrixNew_eq, applyNonLinearity_eq,
      applyRoundConstants_eq]

lemma generatePartialRounds_eq (n r : ℕ) (state : State F) :
    (generatePartialRounds n r state).2 = partialRoundsFrom n r state := by
  induction n generalizing r state with
  | zero => rfl
  | succ n ih => simp only [generatePartialRounds, partialRoundsFrom, ih, partialRoundOptimized_eq]

end Rounds

section Row

variable {rc} {inputs : State F} {swap : ℕ} {wire : ℕ → F}

/-- What the generator wrote, loop by loop. -/
lemma GeneratedRow.segments (h : GeneratedRow rc inputs swap wire) :
    ∃ full0 partials full1 : List F × State F,
      full0 = generateFullRounds rc (· ≠ 0) 4 0 0 (swapState swap inputs) ∧
      partials = generatePartialRounds 22 0 (partialRoundsInit full0.2) ∧
      full1 = generateFullRounds rc (fun _ => true) 4 0 26 partials.2 ∧
      (∀ i < 4, wire (wireDelta i) =
        (swap : F) * (inputs (Fin.ofNat 12 (i + 4)) - inputs (Fin.ofNat 12 i))) ∧
      (sboxColumns wireFullSbox0 ((List.range' 0 4).filter (· ≠ 0))).map wire = full0.1 ∧
      ((List.range' 0 22).map wirePartialSbox).map wire = partials.1 ∧
      (sboxColumns wireFullSbox1 ((List.range' 0 4).filter fun _ => true)).map wire = full1.1 ∧
      ∀ i : Fin 12, wire (wireOutput i) = full1.2 i := by
  have hwritten := h.output
  simp only [outputTargets, poseidonGeneratorNew, List.map_append] at hwritten
  obtain ⟨hdeltas, hwritten⟩ := List.append_inj hwritten (by simp)
  obtain ⟨hfull0, hwritten⟩ := List.append_inj hwritten
    (by rw [List.length_map, length_sboxColumns, length_generateFullRounds]; rfl)
  obtain ⟨hpartials, hwritten⟩ := List.append_inj hwritten
    (by rw [List.length_map, List.length_map, List.length_range, length_generatePartialRounds])
  obtain ⟨hfull1, houtputs⟩ := List.append_inj hwritten
    (by rw [List.length_map, length_sboxColumns, length_generateFullRounds]; rfl)
  refine ⟨_, _, _, rfl, rfl, rfl, ?_, hfull0, ?_, ?_, ?_⟩
  · intro i hi
    rw [List.map_map] at hdeltas
    exact List.map_inj_left.mp hdeltas i (List.mem_range.mpr hi)
  · rwa [← List.range_eq_range']
  · rwa [List.filter_true, ← List.range_eq_range']
  · rw [List.map_ofFn] at houtputs
    exact congrFun (List.ofFn_injective houtputs)

lemma GeneratedRow.wire_eq (h : GeneratedRow rc inputs swap wire) {i : ℕ} (hi : i < 12) :
    wire i = inputs (Fin.ofNat 12 i) := by
  have hval : ((Fin.ofNat 12 i : Fin 12) : ℕ) = i := Nat.mod_eq_of_lt hi
  rw [← h.input, hval]

lemma GeneratedRow.delta_eq_zero (h : GeneratedRow rc inputs swap wire) {i : ℕ} (hi : i < 4) :
    wire 24 * (wire (i + 4) - wire i) - wire (i + 25) = 0 := by
  obtain ⟨_, _, _, -, -, -, hdelta, -⟩ := h.segments
  have hwire : wire 24 = swap := h.swapWire
  rw [hwire, h.wire_eq (by omega), h.wire_eq (by omega), ← hdelta i hi, wireDelta, startDelta,
    add_comm i 25, sub_self]

/-- The gate undoes the swap with the deltas. -/
lemma GeneratedRow.checkedState_eq (h : GeneratedRow rc inputs swap wire)
    (hswap : swap = 0 ∨ swap = 1) : checkedState wire = swapState swap inputs := by
  obtain ⟨_, _, _, -, -, -, hdelta, -⟩ := h.segments
  have hleft : ∀ i : Fin 12, (i : ℕ) < 4 → wire (i + 25) = swap * (inputs (i + 4) - inputs i) := by
    intro i hi
    have hnext : Fin.ofNat 12 (i + 4) = i + 4 := by
      apply Fin.ext
      simp [Fin.val_add]
    have hself : Fin.ofNat 12 (i : ℕ) = i := Fin.ofNat_val_eq_self i
    have hwire := hdelta i hi
    rwa [hnext, hself, wireDelta, startDelta, add_comm] at hwire
  have hright : ∀ i : Fin 12, 4 ≤ (i : ℕ) → (i : ℕ) < 8 →
      wire (i - 4 + 25) = swap * (inputs i - inputs (i - 4)) := by
    intro i hi hi'
    have hval : ((i - 4 : Fin 12) : ℕ) = i - 4 := Fin.sub_val_of_le hi
    rw [← hval, hleft (i - 4) (by omega), sub_add_cancel]
  funext i
  rw [checkedState, h.input i]
  by_cases hfour : (i : ℕ) < 4
  · rw [if_pos hfour, hleft i hfour]
    rcases hswap with rfl | rfl
    · simp [swapState]
    · simp [swapState, hfour]
  · rw [if_neg hfour]
    by_cases height : (i : ℕ) < 8
    · rw [if_pos height, hright i (by omega) height]
      rcases hswap with rfl | rfl
      · simp [swapState]
      · simp [swapState, hfour, height]
    · rw [if_neg height]
      rcases hswap with rfl | rfl
      · simp [swapState]
      · simp [swapState, hfour, height]

variable (rc) in
/-- The wires of a row as the generator fills them, zero where the gate has none. -/
def generatedWires (inputs : State F) (swap : ℕ) (column : ℕ) : F :=
  if hcolumn : column < 12 then inputs ⟨column, hcolumn⟩
  else if column = wireSwap then swap
  else (poseidonGeneratorNew rc inputs swap).getD (outputTargets.idxOf column) 0

lemma length_poseidonGeneratorNew (inputs : State F) (swap : ℕ) :
    (poseidonGeneratorNew rc inputs swap).length = outputTargets.length := by
  simp only [poseidonGeneratorNew, List.length_append, length_generateFullRounds,
    length_generatePartialRounds, List.length_map, List.length_range, List.length_ofFn]
  decide

/-- No target of the generator is an input or the swap wire. -/
lemma outputTargets_spec :
    outputTargets.Nodup ∧ ∀ column ∈ outputTargets, ¬ column < 12 ∧ column ≠ wireSwap := by
  decide +kernel

lemma generatedRow_generatedWires (inputs : State F) (swap : ℕ) :
    GeneratedRow rc inputs swap (generatedWires rc inputs swap) := by
  refine ⟨?_, ?_, ?_⟩
  · intro i
    simp [generatedWires]
  · simp [generatedWires, wireSwap]
  · apply List.ext_getElem (by rw [List.length_map, length_poseidonGeneratorNew])
    intro k hk hk'
    rw [List.length_map] at hk
    obtain ⟨hinput, hswap⟩ := outputTargets_spec.2 _ (List.getElem_mem hk)
    rw [List.getElem_map, generatedWires, dif_neg hinput, if_neg hswap,
      outputTargets_spec.1.idxOf_getElem, List.getD_eq_getElem _ _ hk']

end Row

/-- The state `0, …, 11`. -/
def countingState : State (ZMod goldilocksOrder) := fun i => ((i : ℕ) : ZMod goldilocksOrder)

end MegaZK.Poseidon
