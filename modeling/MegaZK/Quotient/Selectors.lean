import Mathlib
import MegaZK.Device
import MegaZK.Goldilocks

/-! # Selectors and filters

`selector_polynomials` puts the gates into groups, one selector polynomial for each. A gate's
constraints are multiplied by a filter of the value of its selector: `compute_filter` on the host,
`compute_filter_partial` in the kernels. -/

namespace MegaZK

/-- `UNUSED_SELECTOR`. -/
def unusedSelector : ℕ := u32Max

/-- `SelectorsInfo`; a group is a range of gates. -/
structure SelectorsInfo where
  selectorIndices : List ℕ
  groups : List (ℕ × ℕ)
  deriving DecidableEq, Repr

/-! ### Groups -/

/-- The inner loop of `selector_polynomials`: a group grows while its size and the degree of the
next gate stay below the bound. -/
def growGroup (maxDegree : ℕ) : List ℕ → ℕ → ℕ
  | [], size => size
  | degree :: degrees, size =>
    if size + degree < maxDegree then growGroup maxDegree degrees (size + 1) else size

/-- The outer loop. A group of size zero would never end, which is `none`. -/
def groupsFrom (maxDegree : ℕ) : ℕ → ℕ → List ℕ → Option (List (ℕ × ℕ))
  | _, _, [] => some []
  | 0, _, _ :: _ => none
  | fuel + 1, start, degrees => do
    let size := growGroup maxDegree degrees 0
    let groups ← groupsFrom maxDegree fuel (start + size) (degrees.drop size)
    return (start, start + size) :: groups

/-- The grouping of `selector_polynomials` for gates of the given degrees. -/
def selectorPolynomials (degrees : List ℕ) (maxDegree : ℕ) : Option SelectorsInfo := do
  let maxGateDegree ← degrees.getLast?
  if maxGateDegree + degrees.length - 1 ≤ maxDegree then
    return ⟨List.replicate degrees.length 0, [(0, degrees.length)]⟩
  else if maxDegree ≤ maxGateDegree then none
  else
    let groups ← groupsFrom maxDegree degrees.length 0 degrees
    let selectorIndices ← (List.range degrees.length).mapM fun i =>
      groups.findIdx? fun group => group.1 ≤ i ∧ i < group.2
    return ⟨selectorIndices, groups⟩

/-! ### The groups of a circuit -/

lemma growGroup_le (maxDegree : ℕ) (degrees : List ℕ) (size : ℕ) :
    growGroup maxDegree degrees size ≤ size + degrees.length := by
  induction degrees generalizing size with
  | nil => exact le_rfl
  | cons degree degrees ih =>
    rw [growGroup, List.length_cons]
    split_ifs
    · exact (ih (size + 1)).trans (by omega)
    · omega

/-- A group that takes all gates takes the last one. -/
lemma last_lt_of_growGroup {maxDegree : ℕ} {degrees : List ℕ} {size last : ℕ}
    (hlast : degrees.getLast? = some last)
    (hall : growGroup maxDegree degrees size = size + degrees.length) :
    last + size + degrees.length ≤ maxDegree := by
  induction degrees generalizing size with
  | nil => cases hlast
  | cons degree degrees ih =>
    rw [growGroup, List.length_cons] at hall
    split_ifs at hall with hlt
    · cases degrees with
      | nil =>
        obtain rfl : degree = last := Option.some.inj hlast
        rw [List.length_cons, List.length_nil]
        omega
      | cons next rest =>
        have := @ih (size + 1) hlast (by omega)
        rw [List.length_cons]
        omega
    · omega

lemma length_groupsFrom_le {maxDegree fuel start : ℕ} {degrees : List ℕ} {groups : List (ℕ × ℕ)}
    (h : groupsFrom maxDegree fuel start degrees = some groups) : groups.length ≤ fuel := by
  induction fuel generalizing start degrees groups with
  | zero =>
    cases degrees with
    | nil =>
      cases h
      exact le_rfl
    | cons => cases h
  | succ fuel ih =>
    cases degrees with
    | nil =>
      cases h
      exact Nat.zero_le _
    | cons =>
      simp only [groupsFrom, Option.bind_eq_bind, Option.pure_def, Option.bind_eq_some_iff,
        Option.some.injEq] at h
      obtain ⟨rest, hrest, rfl⟩ := h
      exact Nat.succ_le_succ (ih hrest)

/-- No group ends after the last gate. -/
lemma stop_groupsFrom_le {maxDegree fuel start : ℕ} {degrees : List ℕ} {groups : List (ℕ × ℕ)}
    (h : groupsFrom maxDegree fuel start degrees = some groups) :
    ∀ group ∈ groups, group.1 ≤ group.2 ∧ group.2 ≤ start + degrees.length := by
  induction fuel generalizing start degrees groups with
  | zero =>
    cases degrees with
    | nil =>
      cases h
      simp
    | cons => cases h
  | succ fuel ih =>
    cases degrees with
    | nil =>
      cases h
      simp
    | cons degree degrees =>
      simp only [groupsFrom, Option.bind_eq_bind, Option.pure_def, Option.bind_eq_some_iff,
        Option.some.injEq] at h
      obtain ⟨rest, hrest, rfl⟩ := h
      have hsize := growGroup_le maxDegree (degree :: degrees) 0
      intro group hgroup
      rcases List.mem_cons.mp hgroup with rfl | hgroup
      · dsimp only
        omega
      · have := ih hrest group hgroup
        rw [List.length_drop] at this
        omega

/-- Gates that do not fit one selector are in more than one group. -/
lemma one_lt_length_groupsFrom {maxDegree fuel start last : ℕ} {degrees : List ℕ}
    {groups : List (ℕ × ℕ)} (h : groupsFrom maxDegree fuel start degrees = some groups)
    (hlast : degrees.getLast? = some last) (hlarge : maxDegree < last + degrees.length) :
    1 < groups.length := by
  cases degrees with
  | nil => cases hlast
  | cons degree degrees =>
    cases fuel with
    | zero => cases h
    | succ fuel =>
      simp only [groupsFrom, Option.bind_eq_bind, Option.pure_def, Option.bind_eq_some_iff,
        Option.some.injEq] at h
      obtain ⟨rest, hrest, rfl⟩ := h
      have hle := growGroup_le maxDegree (degree :: degrees) 0
      cases hdrop : (degree :: degrees).drop (growGroup maxDegree (degree :: degrees) 0) with
      | nil =>
        have hgroup : growGroup maxDegree (degree :: degrees) 0 =
            0 + (degree :: degrees).length := by
          refine hle.antisymm ?_
          rw [zero_add]
          exact List.drop_eq_nil_iff.mp hdrop
        have hall := last_lt_of_growGroup hlast hgroup
        omega
      | cons next after =>
        rw [hdrop] at hrest
        cases rest with
        | nil =>
          cases fuel with
          | zero => cases hrest
          | succ fuel =>
            simp only [groupsFrom, Option.bind_eq_bind, Option.pure_def, Option.bind_eq_some_iff,
              Option.some.injEq] at hrest
            obtain ⟨_, -, hcons⟩ := hrest
            cases hcons
        | cons => simp

lemma mapM_option_eq_some {α β : Type} {f : α → Option β} {l : List α} {l' : List β}
    (h : l.mapM f = some l') : l'.length = l.length ∧ ∀ y ∈ l', ∃ x ∈ l, f x = some y := by
  induction l generalizing l' with
  | nil =>
    cases h
    simp
  | cons x l ih =>
    simp only [List.mapM_cons, Option.bind_eq_bind, Option.pure_def, Option.bind_eq_some_iff,
      Option.some.injEq] at h
    obtain ⟨y, hy, rest, hrest, rfl⟩ := h
    obtain ⟨hlength, hmem⟩ := ih hrest
    refine ⟨by simp [hlength], ?_⟩
    intro z hz
    rcases List.mem_cons.mp hz with rfl | hz
    · exact ⟨x, by simp, hy⟩
    · obtain ⟨w, hw, hfw⟩ := hmem z hz
      exact ⟨w, by simp [hw], hfw⟩

/-- What the quotient reads of the grouping. -/
structure SelectorsInfo.Describes (info : SelectorsInfo) (degrees : List ℕ) (maxDegree : ℕ) :
    Prop where
  length_indices : info.selectorIndices.length = degrees.length
  index_lt : ∀ index ∈ info.selectorIndices, index < info.groups.length
  length_groups : info.groups.length ≤ degrees.length
  stop_le : ∀ group ∈ info.groups, group.1 ≤ group.2 ∧ group.2 ≤ degrees.length
  single : ∀ last, degrees.getLast? = some last →
    last + degrees.length ≤ maxDegree + 1 → info.groups = [(0, degrees.length)]
  many : ∀ last, degrees.getLast? = some last →
    maxDegree + 1 < last + degrees.length → 1 < info.groups.length

lemma describes_selectorPolynomials {degrees : List ℕ} {maxDegree : ℕ} {info : SelectorsInfo}
    (h : selectorPolynomials degrees maxDegree = some info) :
    info.Describes degrees maxDegree := by
  simp only [selectorPolynomials, Option.bind_eq_bind, Option.bind_eq_some_iff] at h
  obtain ⟨last, hlast, hrest⟩ := h
  have hpos : 0 < degrees.length := by
    cases degrees with
    | nil => cases hlast
    | cons => simp
  split_ifs at hrest with hsingle hpanic
  · cases hrest
    refine ⟨by simp, ?_, hpos, by simp, fun _ _ _ => rfl, ?_⟩
    · intro index hindex
      rw [List.eq_of_mem_replicate hindex]
      exact Nat.one_pos
    · intro last' hlast' hlarge
      obtain rfl := Option.some.inj (hlast.symm.trans hlast')
      omega
  · simp only [Option.bind_eq_some_iff] at hrest
    obtain ⟨groups, hgroups, indices, hindices, hinfo⟩ := hrest
    cases hinfo
    obtain ⟨hlength, hfound⟩ := mapM_option_eq_some hindices
    refine ⟨by simpa using hlength, ?_, length_groupsFrom_le hgroups, ?_, ?_, ?_⟩
    · intro index hindex
      obtain ⟨i, -, hi⟩ := hfound index hindex
      exact (List.findIdx?_eq_some_iff_findIdx_eq.mp hi).1
    · intro group hgroup
      simpa using stop_groupsFrom_le hgroups group hgroup
    · intro last' hlast' hsmall
      obtain rfl := Option.some.inj (hlast.symm.trans hlast')
      omega
    · intro last' hlast' hlarge
      exact one_lt_length_groupsFrom hgroups hlast' (by omega)

/-! ### Filters -/

section Filters

variable {F : Type} [Field F]

/-- `compute_filter`. -/
def computeFilter (row start stop : ℕ) (s : F) (manySelector : Bool) : F :=
  (((List.range' start (stop - start)).filter (· ≠ row) ++
    if manySelector then [unusedSelector] else []).map fun i : ℕ => (i : F) - s).prod

/-- `index << bits` of `unsigned`. -/
def shlIndex (index bits : ℕ) : Option ℕ := if bits < 32 then some (u32 (index <<< bits)) else none

/-- `load_from_either`. -/
def loadFromEither (lde start : ℕ → F) (numLdes ldeDegreeBits degreeBits index : ℕ) : Option F :=
  if index < numLdes then (shlIndex index ldeDegreeBits).map lde
  else (shlIndex index degreeBits).map start

/-- The loop of `compute_filter_partial`. -/
def filterLoop (row : ℕ) (s : F) : ℕ → ℕ → F → F
  | _, 0, filter => filter
  | i, n + 1, filter => filterLoop row s (i + 1) n (if i ≠ row then filter * ((i : F) - s) else filter)

/-- `compute_filter_partial`. The last factor stands under `if (true) // many selectors`. -/
def computeFilterPartial (ldes polys : ℕ → F)
    (numLdes row selectorIndex start stop ldeDegreeBits degreeBits : ℕ) : Option F := do
  let s ← loadFromEither ldes polys numLdes ldeDegreeBits degreeBits selectorIndex
  let filter := filterLoop row s start (stop - start) 1
  return filter * ((unusedSelector : F) - s)

/-- The copy of `compute_filter_partial` beside the Poseidon gate. -/
def poseidonComputeFilterPartial (ldes polys : ℕ → F)
    (numLdes row selectorIndex start stop ldeDegreeBits degreeBits : ℕ) : Option F :=
  computeFilterPartial ldes polys numLdes row selectorIndex start stop ldeDegreeBits degreeBits

lemma filterLoop_eq (row : ℕ) (s : F) (start n : ℕ) (filter : F) :
    filterLoop row s start n filter =
      filter * (((List.range' start n).filter (· ≠ row)).map fun i : ℕ => (i : F) - s).prod := by
  induction n generalizing start filter with
  | zero => simp [filterLoop]
  | succ n ih =>
    rw [filterLoop, ih, List.range'_succ]
    by_cases hrow : start = row
    · simp [hrow]
    · rw [if_pos hrow, List.filter_cons_of_pos (by simpa using hrow), List.map_cons,
        List.prod_cons, mul_assoc]

/-- The host's filter with and without the last factor. -/
lemma computeFilter_eq (row start stop : ℕ) (s : F) (manySelector : Bool) :
    computeFilter row start stop s manySelector =
      filterLoop row s start (stop - start) 1 *
        if manySelector then (unusedSelector : F) - s else 1 := by
  rw [computeFilter, filterLoop_eq, one_mul, List.map_append, List.prod_append]
  cases manySelector <;> simp

lemma filterLoop_eq_zero_iff (row start n : ℕ) (s : F) :
    filterLoop row s start n 1 = 0 ↔ ∃ i, start ≤ i ∧ i < start + n ∧ i ≠ row ∧ s = i := by
  rw [filterLoop_eq, one_mul, List.prod_eq_zero_iff]
  simp only [List.mem_map, List.mem_filter, List.mem_range'_1, decide_eq_true_eq, sub_eq_zero]
  constructor
  · rintro ⟨i, ⟨⟨hstart, hstop⟩, hrow⟩, hs⟩
    exact ⟨i, hstart, hstop, hrow, hs.symm⟩
  · rintro ⟨i, hstart, hstop, hrow, hs⟩
    exact ⟨i, ⟨⟨hstart, hstop⟩, hrow⟩, hs.symm⟩

/-- The cells a kernel loads the constants from at one point: LDEs for the first columns,
coefficients evaluated in place for the others. -/
structure ConstantsMemory (F : Type) where
  ldes : ℕ → F
  polys : ℕ → F
  numLdes : ℕ
  ldeDegreeBits : ℕ
  degreeBits : ℕ

namespace ConstantsMemory

variable (m : ConstantsMemory F)

/-- The width of the column of a constant. -/
def columnBits (index : ℕ) : ℕ := if index < m.numLdes then m.ldeDegreeBits else m.degreeBits

/-- The columns hold the values of the constants. -/
def Holds (constants : ℕ → F) : Prop :=
  ∀ index, (if index < m.numLdes then m.ldes else m.polys) (index * 2 ^ m.columnBits index) =
    constants index

/-- The first columns start at 32-bit numbers. -/
def Addresses (count : ℕ) : Prop :=
  ∀ index < count, m.columnBits index < 32 ∧ index * 2 ^ m.columnBits index < 2 ^ 32

variable {m}

omit [Field F] in
lemma loadFromEither_eq {constants : ℕ → F} {count index : ℕ} (hholds : m.Holds constants)
    (haddresses : m.Addresses count) (hindex : index < count) :
    loadFromEither m.ldes m.polys m.numLdes m.ldeDegreeBits m.degreeBits index =
      some (constants index) := by
  obtain ⟨hbits, haddress⟩ := haddresses index hindex
  have hvalue := hholds index
  unfold columnBits at hbits haddress hvalue
  unfold loadFromEither shlIndex
  split_ifs at hbits haddress hvalue ⊢
  · rw [Option.map_some, Nat.shiftLeft_eq, u32_of_lt haddress, hvalue]
  · rw [Option.map_some, Nat.shiftLeft_eq, u32_of_lt haddress, hvalue]

end ConstantsMemory

namespace SelectorsInfo

variable (info : SelectorsInfo)

/-- The selector of a gate and its group. -/
def group (row : ℕ) : Option (ℕ × ℕ × ℕ) := do
  let selectorIndex ← info.selectorIndices[row]?
  let range ← info.groups[selectorIndex]?
  return (selectorIndex, range)

/-- The filter that `compute_part` has a gate's kernel apply; `filter` is the kernel's copy. -/
def deviceFilter (filter : (ℕ → F) → (ℕ → F) → ℕ → ℕ → ℕ → ℕ → ℕ → ℕ → ℕ → Option F) (row : ℕ)
    (m : ConstantsMemory F) : Option F := do
  let (selectorIndex, start, stop) ← info.group row
  filter m.ldes m.polys m.numLdes (u32 row) (u32 selectorIndex) (u32 start) (u32 stop)
    m.ldeDegreeBits m.degreeBits

/-- The filter of `eval_filtered_base_batch`. -/
def hostFilter (row : ℕ) (constants : ℕ → F) : Option F := do
  let (selectorIndex, start, stop) ← info.group row
  return computeFilter row start stop (constants selectorIndex) (1 < info.groups.length)

/-- Kernel and host apply the same filter at a point. -/
def FiltersAgree (filter : (ℕ → F) → (ℕ → F) → ℕ → ℕ → ℕ → ℕ → ℕ → ℕ → ℕ → Option F) (row : ℕ)
    (m : ConstantsMemory F) (constants : ℕ → F) : Prop :=
  ∃ value, info.deviceFilter filter row m = some value ∧
    info.hostFilter row constants = some value

end SelectorsInfo

section Agreement

variable {degrees : List ℕ} {maxDegree last row : ℕ} {info : SelectorsInfo}

lemma SelectorsInfo.Describes.group_eq (hinfo : info.Describes degrees maxDegree)
    (hrow : row < degrees.length) :
    ∃ selectorIndex start stop, info.group row = some (selectorIndex, start, stop) ∧
      selectorIndex < info.groups.length ∧ (start, stop) ∈ info.groups := by
  have hlt : row < info.selectorIndices.length := hinfo.length_indices ▸ hrow
  have hindex := hinfo.index_lt _ (List.getElem_mem hlt)
  refine ⟨info.selectorIndices[row], (info.groups[info.selectorIndices[row]]).1,
    (info.groups[info.selectorIndices[row]]).2, ?_, hindex, ?_⟩
  · simp [group, List.getElem?_eq_getElem hlt, List.getElem?_eq_getElem hindex]
  · simp

/-- The device's filter is the host's without its condition on the number of selectors. -/
lemma SelectorsInfo.Describes.deviceFilter_eq (hinfo : info.Describes degrees maxDegree)
    (hcount : degrees.length < 2 ^ 32) {m : ConstantsMemory F} {constants : ℕ → F}
    (hholds : m.Holds constants) (haddresses : m.Addresses info.groups.length)
    {selectorIndex start stop : ℕ} (hrow : row < degrees.length)
    (hgroup : info.group row = some (selectorIndex, start, stop))
    (hindex : selectorIndex < info.groups.length) (hmem : (start, stop) ∈ info.groups) :
    info.deviceFilter computeFilterPartial row m =
      some (filterLoop row (constants selectorIndex) start (stop - start) 1 *
        ((unusedSelector : F) - constants selectorIndex)) := by
  have hlength := hinfo.length_groups
  have hstop := hinfo.stop_le _ hmem
  dsimp only at hstop
  rw [deviceFilter, hgroup]
  simp only [Option.bind_eq_bind, Option.bind_some]
  rw [u32_of_lt (x := row) (by omega), u32_of_lt (x := selectorIndex) (by omega),
    u32_of_lt (x := start) (by omega), u32_of_lt (x := stop) (by omega), computeFilterPartial,
    ConstantsMemory.loadFromEither_eq hholds haddresses hindex]
  rfl

/-- The filters of a gate agree at a point exactly when there are many selectors, the value of the
selector is the number of another gate, or the extra factor is one. -/
lemma filtersAgree_iff (hinfo : selectorPolynomials degrees maxDegree = some info)
    (hlast : degrees.getLast? = some last) (hcount : degrees.length < 2 ^ 32)
    (hrow : row < degrees.length) {m : ConstantsMemory F} {constants : ℕ → F}
    (hholds : m.Holds constants) (haddresses : m.Addresses info.groups.length) :
    info.FiltersAgree computeFilterPartial row m constants ↔
      maxDegree + 1 < last + degrees.length ∨
        (∃ i < degrees.length, i ≠ row ∧ constants 0 = i) ∨
        (unusedSelector : F) - constants 0 = 1 := by
  have hdesc := describes_selectorPolynomials hinfo
  obtain ⟨selectorIndex, start, stop, hgroup, hindex, hmem⟩ := hdesc.group_eq hrow
  have hdevice := hdesc.deviceFilter_eq hcount hholds haddresses hrow hgroup hindex hmem
  have hhost : info.hostFilter row constants =
      some (filterLoop row (constants selectorIndex) start (stop - start) 1 *
        if 1 < info.groups.length then (unusedSelector : F) - constants selectorIndex else 1) := by
    rw [SelectorsInfo.hostFilter, hgroup]
    simp only [Option.bind_eq_bind, Option.bind_some, Option.pure_def, computeFilter_eq,
      decide_eq_true_eq]
  have hagree : info.FiltersAgree computeFilterPartial row m constants ↔
      filterLoop row (constants selectorIndex) start (stop - start) 1 *
          ((unusedSelector : F) - constants selectorIndex) =
        filterLoop row (constants selectorIndex) start (stop - start) 1 *
          if 1 < info.groups.length then (unusedSelector : F) - constants selectorIndex else 1 := by
    rw [SelectorsInfo.FiltersAgree, hdevice, hhost]
    constructor
    · rintro ⟨value, hleft, hright⟩
      rw [Option.some.inj hleft, Option.some.inj hright]
    · intro heq
      exact ⟨_, rfl, by rw [heq]⟩
  rw [hagree]
  by_cases hmany : maxDegree + 1 < last + degrees.length
  · rw [if_pos (hdesc.many _ hlast hmany)]
    simp [hmany]
  · have hsingle := hdesc.single _ hlast (Nat.not_lt.mp hmany)
    rw [hsingle] at hindex hmem ⊢
    obtain rfl : selectorIndex = 0 := Nat.lt_one_iff.mp hindex
    obtain ⟨rfl, rfl⟩ := Prod.mk.inj (List.mem_singleton.mp hmem)
    rw [if_neg (by simp), mul_eq_mul_left_iff, filterLoop_eq_zero_iff]
    simp only [hmany, false_or, Nat.zero_le, true_and, Nat.sub_zero, Nat.zero_add]
    exact or_comm

/-- Both copies of the kernel's filter agree with the host's at a point of the domain exactly when
the circuit has many selectors, the value of the selector is the number of another gate, or the
factor for `UNUSED_SELECTOR` is one. -/
theorem deviceFilters_agree_iff (hinfo : selectorPolynomials degrees maxDegree = some info)
    (hlast : degrees.getLast? = some last) (hcount : degrees.length < 2 ^ 32)
    (hrow : row < degrees.length) {m : ConstantsMemory F} {constants : ℕ → F}
    (hholds : m.Holds constants) (haddresses : m.Addresses info.groups.length) :
    (info.FiltersAgree computeFilterPartial row m constants ∧
      info.FiltersAgree poseidonComputeFilterPartial row m constants) ↔
      maxDegree + 1 < last + degrees.length ∨
        (∃ i < degrees.length, i ≠ row ∧ constants 0 = i) ∨
        (unusedSelector : F) - constants 0 = 1 := by
  rw [← filtersAgree_iff hinfo hlast hcount hrow hholds haddresses]
  exact and_iff_left_of_imp id

end Agreement

/-- Constants evaluated in place, in columns of `2 ^ 12` rows. -/
def ConstantsMemory.inPlace (constants : ℕ → F) : ConstantsMemory F :=
  ⟨0, fun address => constants (address / 2 ^ 12), 0, 15, 12⟩

lemma ConstantsMemory.holds_inPlace (constants : ℕ → F) : (inPlace constants).Holds constants := by
  intro index
  simp [inPlace, columnBits]

lemma ConstantsMemory.addresses_inPlace (constants : ℕ → F) {count : ℕ} (hcount : count ≤ 2 ^ 20) :
    (inPlace constants).Addresses count := by
  intro index hindex
  simp only [inPlace, columnBits, Nat.not_lt_zero, if_false]
  omega

end Filters

/-- Noop, constant, public input, arithmetic and Poseidon gates: the filter of the Poseidon gate on
one of its rows. -/
theorem deviceFilters_agree_poseidon :
    (⟨[0, 0, 0, 0, 1], [(0, 4), (4, 5)]⟩ : SelectorsInfo).FiltersAgree computeFilterPartial 4
        (.inPlace fun i => if i = 1 then 4 else (unusedSelector : ZMod goldilocksOrder))
        (fun i => if i = 1 then 4 else (unusedSelector : ZMod goldilocksOrder)) ∧
      (⟨[0, 0, 0, 0, 1], [(0, 4), (4, 5)]⟩ : SelectorsInfo).FiltersAgree
        poseidonComputeFilterPartial 4
        (.inPlace fun i => if i = 1 then 4 else (unusedSelector : ZMod goldilocksOrder))
        (fun i => if i = 1 then 4 else (unusedSelector : ZMod goldilocksOrder)) := by
  have hinfo : selectorPolynomials [0, 1, 1, 3, 7] 8 =
      some ⟨[0, 0, 0, 0, 1], [(0, 4), (4, 5)]⟩ := by decide
  exact (deviceFilters_agree_iff hinfo rfl (by decide) (by decide)
    (ConstantsMemory.holds_inPlace _) (ConstantsMemory.addresses_inPlace _ (by decide))).mpr
    (.inl (by decide))

/-- Noop, constant, public input and arithmetic gates need one selector only: the filters of the
arithmetic gate differ where the selector is four. -/
theorem deviceFilters_differ_arithmetic :
    selectorPolynomials [0, 1, 1, 3] 8 = some ⟨[0, 0, 0, 0], [(0, 4)]⟩ ∧
      ¬ (⟨[0, 0, 0, 0], [(0, 4)]⟩ : SelectorsInfo).FiltersAgree computeFilterPartial 3
        (.inPlace fun _ => (4 : ZMod goldilocksOrder)) (fun _ => 4) := by
  have hinfo : selectorPolynomials [0, 1, 1, 3] 8 = some ⟨[0, 0, 0, 0], [(0, 4)]⟩ := by decide
  refine ⟨hinfo, ?_⟩
  rw [filtersAgree_iff hinfo rfl (by decide) (by decide) (ConstantsMemory.holds_inPlace _)
    (ConstantsMemory.addresses_inPlace _ (by decide))]
  rintro (hmany | ⟨i, hi, -, heq⟩ | hone)
  · exact absurd hmany (by decide)
  · have hlt : i < 4 := hi
    interval_cases i <;> revert heq <;> decide
  · revert hone
    decide

end MegaZK
