import Mathlib
import MegaZK.Goldilocks
import MegaZK.Quotient.Constraints

/-! # The random access gate

Every copy checks that an element of a list of `2 ^ bits` elements is the one at an index. The host
halves a vector for each bit of the index, `random_access_gate_partial` an array in place. -/

namespace MegaZK

variable {F : Type} [Field F]

/-- `RandomAccessGate`. -/
structure RandomAccessGate where
  bits : ℕ
  numCopies : ℕ
  numExtraConstants : ℕ
  deriving DecidableEq, Repr

namespace RandomAccessGate

variable (gate : RandomAccessGate)

/-! ### Host -/

/-- `vec_size`. -/
def vecSize : ℕ := 1 <<< gate.bits

/-- `wire_access_index`. -/
def wireAccessIndex (copy : ℕ) : ℕ := (2 + gate.vecSize) * copy

/-- `wire_claimed_element`. -/
def wireClaimedElement (copy : ℕ) : ℕ := (2 + gate.vecSize) * copy + 1

/-- `wire_list_item`. -/
def wireListItem (i copy : ℕ) : ℕ := (2 + gate.vecSize) * copy + 2 + i

/-- `start_extra_constants`. -/
def startExtraConstants : ℕ := (2 + gate.vecSize) * gate.numCopies

/-- `wire_extra_constant`. -/
def wireExtraConstant (i : ℕ) : ℕ := gate.startExtraConstants + i

/-- `num_routed_wires`. -/
def numRoutedWires : ℕ := gate.startExtraConstants + gate.numExtraConstants

/-- `wire_bit`. -/
def wireBit (i copy : ℕ) : ℕ := gate.numRoutedWires + copy * gate.bits + i

/-- One halving: `list_items.iter().tuples().map(|(&x, &y)| x + b * (y - x))`. -/
def foldPairs (b : F) : List F → List F
  | x :: y :: l => (x + b * (y - x)) :: foldPairs b l
  | _ => []

/-- The constraints of a copy. -/
def evalCopy (wires : ℕ → F) (copy : ℕ) : List F :=
  let accessIndex := wires (gate.wireAccessIndex copy)
  let listItems := (List.range gate.vecSize).map fun i => wires (gate.wireListItem i copy)
  let claimedElement := wires (gate.wireClaimedElement copy)
  let bits := (List.range gate.bits).map fun i => wires (gate.wireBit i copy)
  let reconstructedIndex := bits.reverse.foldl (fun acc b => acc + acc + b) 0
  bits.map (fun b => b * (b - 1)) ++
    [reconstructedIndex - accessIndex,
      (bits.foldl (fun items b => foldPairs b items) listItems).headD 0 - claimedElement]

/-- `eval_unfiltered`. -/
def evalUnfiltered (wires constants : ℕ → F) : List F :=
  (List.range gate.numCopies).flatMap (gate.evalCopy wires) ++
    (List.range gate.numExtraConstants).map fun i => constants i - wires (gate.wireExtraConstant i)

end RandomAccessGate

/-! ### Device -/

section Device

variable (load : ℕ → F) (bits numCopies numExtraConstants : ℕ)

/-- The array of the kernel has 16 elements. -/
def listItemsLen : ℕ := 16

/-- The loop over the pairs of the array. -/
def foldPairsInPlace (bit : F) (listItems : ℕ → F) (newSize : ℕ) : ℕ → F :=
  (List.range newSize).foldl
    (fun items j =>
      let x := items (2 * j)
      let y := items (2 * j + 1)
      Function.update items j (x + bit * (y - x)))
    listItems

/-- The loop over the bits from bit `i` on. -/
def foldBitsInPlace (bit : ℕ → F) : ℕ → ℕ → ℕ → (ℕ → F) → ℕ → F
  | 0, _, _, listItems => listItems
  | n + 1, i, size, listItems =>
    foldBitsInPlace bit n (i + 1) (size / 2) (foldPairsInPlace (bit i) listItems (size / 2))

/-- `for (int i = bits - 1; i >= 0; i--)`. -/
def reconstructIndex (bit : ℕ → F) : ℕ → F → F
  | 0, reconstructed => reconstructed
  | i + 1, reconstructed => reconstructIndex bit i (reconstructed + reconstructed + bit i)

/-- The constraints of a copy in the kernel. -/
def copyConstraints (copy : ℕ) : List F :=
  let vecSize := 1 <<< bits
  let accessIndex := load ((2 + vecSize) * copy)
  let claimedElement := load ((2 + vecSize) * copy + 1)
  let bit i := load ((2 + vecSize) * numCopies + numExtraConstants + bits * copy + i)
  let listItems := fun i => load ((2 + vecSize) * copy + 2 + i)
  (List.range bits).map (fun i => bit i * (bit i - 1)) ++
    [reconstructIndex bit bits 0 - accessIndex,
      foldBitsInPlace bit bits 0 vecSize listItems 0 - claimedElement]

end Device

/-- The constraints of `random_access_gate_partial`. A shift by 64 or more is undefined, and so is a
copy that has more items than the array. The constants are told apart by the number of wires. -/
def randomAccessGatePartial (m : PointMemory F) (layout : GateLayout)
    (param1 param2 param3 : ℕ) : Option (List F) :=
  if 64 ≤ param1 ∨ 0 < param2 ∧ listItemsLen < 1 <<< param1 then none
  else
    let wire := m.loadWire layout
    some ((List.range param2).flatMap (copyConstraints wire param1 param2 param3) ++
      (List.range param3).map fun i =>
        m.loadConst layout.numWiresLdes (i + layout.numSelectors) -
          wire ((2 + 1 <<< param1) * param2 + i))

/-! ### Folding in place -/

section Fold

open RandomAccessGate

variable (bit : ℕ → F)

/-- A pair is read before the loop stores over it. -/
lemma foldPairsInPlace_eq (b : F) (items : ℕ → F) (newSize j : ℕ) :
    foldPairsInPlace b items newSize j =
      if j < newSize then items (2 * j) + b * (items (2 * j + 1) - items (2 * j)) else items j := by
  induction newSize generalizing j with
  | zero => simp [foldPairsInPlace]
  | succ n ih =>
    rw [foldPairsInPlace, List.range_succ, List.foldl_append, ← foldPairsInPlace]
    simp only [List.foldl_cons, List.foldl_nil]
    rcases lt_trichotomy j n with hj | rfl | hj
    · rw [Function.update_of_ne hj.ne, ih, if_pos hj, if_pos (by omega)]
    · rw [Function.update_self, ih, ih, if_neg (by omega), if_neg (by omega), if_pos (by omega)]
    · rw [Function.update_of_ne hj.ne', ih, if_neg (by omega), if_neg (by omega)]

lemma foldPairs_map_range (b : F) (items : ℕ → F) (n : ℕ) :
    foldPairs b ((List.range (2 * n)).map items) =
      (List.range n).map fun j => items (2 * j) + b * (items (2 * j + 1) - items (2 * j)) := by
  induction n generalizing items with
  | zero => rfl
  | succ n ih =>
    rw [Nat.mul_succ, List.range_succ_eq_map, List.range_succ_eq_map, List.range_succ_eq_map]
    simp only [List.map_cons, List.map_map, foldPairs, ih]
    rfl

/-- Halving the vector for every bit leaves what halving the array leaves in its first element. -/
lemma foldl_foldPairs (n i : ℕ) (items : ℕ → F) :
    ((List.range' i n).map bit).foldl (fun l b => foldPairs b l) ((List.range (2 ^ n)).map items) =
      [foldBitsInPlace bit n i (2 ^ n) items 0] := by
  induction n generalizing i items with
  | zero => rfl
  | succ n ih =>
    have hhalf : foldPairs (bit i) ((List.range (2 ^ (n + 1))).map items) =
        (List.range (2 ^ n)).map (foldPairsInPlace (bit i) items (2 ^ n)) := by
      rw [pow_succ' 2 n, foldPairs_map_range]
      apply List.map_congr_left
      intro j hj
      rw [foldPairsInPlace_eq, if_pos (List.mem_range.mp hj)]
    have hsize : 2 ^ (n + 1) / 2 = 2 ^ n := by
      rw [pow_succ' 2 n, Nat.mul_div_cancel_left _ (by norm_num)]
    rw [List.range'_succ, List.map_cons, List.foldl_cons, hhalf, ih, foldBitsInPlace, hsize]

lemma foldl_reverse_eq_reconstructIndex (n : ℕ) (acc : F) :
    ((List.range n).map bit).reverse.foldl (fun acc b => acc + acc + b) acc =
      reconstructIndex bit n acc := by
  induction n generalizing acc with
  | zero => rfl
  | succ n ih =>
    rw [List.range_succ, List.map_append, List.reverse_append, List.map_cons, List.map_nil,
      List.reverse_singleton, List.singleton_append, List.foldl_cons, ih, reconstructIndex]

end Fold

namespace RandomAccessGate

variable (gate : RandomAccessGate)

lemma copyConstraints_eq (wires : ℕ → F) (copy : ℕ) :
    copyConstraints wires gate.bits gate.numCopies gate.numExtraConstants copy =
      gate.evalCopy wires copy := by
  have hbit : ∀ i, (2 + 1 <<< gate.bits) * gate.numCopies + gate.numExtraConstants +
      gate.bits * copy + i = gate.wireBit i copy := by
    intro i
    rw [wireBit, numRoutedWires, startExtraConstants, vecSize, mul_comm gate.bits]
  have hlist := foldl_foldPairs (fun i => wires (gate.wireBit i copy)) gate.bits 0
    fun i => wires (gate.wireListItem i copy)
  rw [← List.range_eq_range', ← Nat.one_shiftLeft] at hlist
  simp only [copyConstraints, evalCopy, hbit, foldl_reverse_eq_reconstructIndex, List.map_map,
    vecSize, hlist]
  rfl

/-! ### When the kernel agrees -/

/-- For every content of the columns the kernel yields the host's combination of the gate's
constraints. -/
def Agrees (F : Type) [Field F] (layout : GateLayout) : Prop :=
  ∀ (m : PointMemory F) (alpha : F), ∃ constraints,
    randomAccessGatePartial m layout gate.bits gate.numCopies gate.numExtraConstants =
      some constraints ∧
    combine alpha constraints =
      reduceWithPowers alpha (gate.evalUnfiltered (m.loadWire layout) (m.gateConstant layout))

/-- No copy has more items than the array, and the two thresholds tell the gate's constants apart in
the same way. -/
def Fits (layout : GateLayout) : Prop :=
  gate.bits < 64 ∧ (gate.numCopies = 0 ∨ gate.bits ≤ 4) ∧
    ∀ i < gate.numExtraConstants, i + layout.numSelectors < layout.numWiresLdes ↔
      i + layout.numSelectors < layout.numConstSigmasLdes

variable {gate : RandomAccessGate} {layout : GateLayout}

lemma listItemsLen_lt_iff (bits : ℕ) : listItemsLen < 1 <<< bits ↔ 4 < bits := by
  rw [Nat.one_shiftLeft, listItemsLen, show 16 = 2 ^ 4 by norm_num]
  exact Nat.pow_lt_pow_iff_right (by norm_num)

omit [Field F] in
/-- The extra constants as the kernel loads them. -/
lemma Fits.loadConst_eq (h : gate.Fits layout) (m : PointMemory F) {i : ℕ}
    (hi : i < gate.numExtraConstants) :
    m.loadConst layout.numWiresLdes (i + layout.numSelectors) = m.gateConstant layout i := by
  rw [PointMemory.gateConstant, PointMemory.loadConst, PointMemory.loadConst]
  exact if_congr (h.2.2 i hi) rfl rfl

lemma Fits.agrees (h : gate.Fits layout) : gate.Agrees F layout := by
  intro m alpha
  have hdefined : ¬ (64 ≤ gate.bits ∨ 0 < gate.numCopies ∧ listItemsLen < 1 <<< gate.bits) := by
    obtain ⟨hbits, hcopies, -⟩ := h
    rw [listItemsLen_lt_iff]
    omega
  refine ⟨_, if_neg hdefined, ?_⟩
  have hcopies : copyConstraints (m.loadWire layout) gate.bits gate.numCopies
      gate.numExtraConstants = gate.evalCopy (m.loadWire layout) := by
    funext copy
    exact gate.copyConstraints_eq _ copy
  have hconstants : (List.range gate.numExtraConstants).map (fun i =>
      m.loadConst layout.numWiresLdes (i + layout.numSelectors) -
        m.loadWire layout ((2 + 1 <<< gate.bits) * gate.numCopies + i)) =
      (List.range gate.numExtraConstants).map fun i =>
        m.gateConstant layout i - m.loadWire layout (gate.wireExtraConstant i) := by
    apply List.map_congr_left
    intro i hi
    rw [h.loadConst_eq m (List.mem_range.mp hi)]
    rfl
  rw [combine_eq, hcopies, hconstants, evalUnfiltered]

/-- The columns that are zero except for one, which only the loads from `polys_ptr` find. -/
def singleColumn (F : Type) [Field F] (column : ℕ) : PointMemory F := ⟨0, Pi.single column 1⟩

lemma sum_loadConst_singleColumn {i n : ℕ} (hi : i < n) (offset numLdes : ℕ) :
    ∑ k ∈ Finset.range n, (singleColumn F (i + offset)).loadConst numLdes (k + offset) =
      if i + offset < numLdes then 0 else 1 := by
  rw [Finset.sum_eq_single i]
  · simp [PointMemory.loadConst, singleColumn]
  · intro k _ hk
    rw [PointMemory.loadConst]
    split_ifs
    · rfl
    · exact Pi.single_eq_of_ne (by omega) _
  · intro hmem
    exact absurd (Finset.mem_range.mpr hi) hmem

/-- Where the thresholds differ on a constant, the kernel misses a column that the gate has. -/
lemma Agrees.threshold (h : gate.Agrees F layout) {i : ℕ} (hi : i < gate.numExtraConstants) :
    i + layout.numSelectors < layout.numWiresLdes ↔
      i + layout.numSelectors < layout.numConstSigmasLdes := by
  by_contra hne
  obtain ⟨constraints, hkernel, hcombine⟩ := h (singleColumn F (i + layout.numSelectors)) 1
  rw [randomAccessGatePartial, Option.ite_none_left_eq_some] at hkernel
  obtain ⟨-, hkernel⟩ := hkernel
  obtain rfl := Option.some.inj hkernel
  have hcopies : copyConstraints ((singleColumn F (i + layout.numSelectors)).loadWire layout)
      gate.bits gate.numCopies gate.numExtraConstants =
        gate.evalCopy ((singleColumn F (i + layout.numSelectors)).loadWire layout) := by
    funext copy
    exact gate.copyConstraints_eq _ copy
  -- the bits, indices and elements of the copies and the claimed constants cancel
  rw [combine_eq, reduceWithPowers_one, reduceWithPowers_one, evalUnfiltered, List.sum_append,
    List.sum_append, hcopies, add_right_inj] at hcombine
  change ∑ k ∈ Finset.range _, _ = ∑ k ∈ Finset.range _, _ at hcombine
  rw [Finset.sum_sub_distrib, Finset.sum_sub_distrib] at hcombine
  have hloads : ∑ k ∈ Finset.range gate.numExtraConstants,
      (singleColumn F (i + layout.numSelectors)).loadConst layout.numWiresLdes
        (k + layout.numSelectors) =
      ∑ k ∈ Finset.range gate.numExtraConstants,
        (singleColumn F (i + layout.numSelectors)).loadConst layout.numConstSigmasLdes
          (k + layout.numSelectors) := sub_left_injective hcombine
  rw [sum_loadConst_singleColumn hi, sum_loadConst_singleColumn hi] at hloads
  split_ifs at hloads with hwires hconsts hconsts
  · exact hne (iff_of_true hwires hconsts)
  · exact zero_ne_one hloads
  · exact one_ne_zero hloads
  · exact hne (iff_of_false hwires hconsts)

end RandomAccessGate

end MegaZK
