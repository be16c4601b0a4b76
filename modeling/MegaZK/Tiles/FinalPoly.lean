import MegaZK.Fri.Extension
import MegaZK.Kernel
import MegaZK.Lib.Fold

/-! # Division by a linear polynomial

`divide_shift_add`: one block divides by `X - z`, a 128th of the coefficients by each thread, and a
launch adds the quotient to the final polynomial. Offsets count words, two for each element. -/

namespace MegaZK

open Grid Cover Horner

variable {F : Type} [CommRing F]

/-! ### Source -/

/-- `TILE`. -/
def divideTile : ℕ := 128

/-- Where the part of a thread begins. -/
def divideStart (blockLen gId : ℕ) : ℕ := u32 (gId * blockLen * 2) / 2

/-- First step: the stores of the loop over a part, from its last element down. -/
def divideLoop (input : ℕ → ExtensionField F) (point : ExtensionField F) :
    ℕ → ExtensionField F → List (ℕ × ExtensionField F)
  | 0, _ => []
  | i + 1, acc =>
    let acc := mulExt acc point + input i
    (i, acc) :: divideLoop input point i acc

/-- Second step: the loop over the first elements of the parts after number `gId`, from the last
part down. -/
def carryLoop (first : ℕ → ExtensionField F) (pointLen : ExtensionField F) (gId : ℕ) :
    ℕ → ExtensionField F → ExtensionField F
  | 0, acc => acc
  | n + 1, acc => carryLoop first pointLen gId n (mulExt acc pointLen + first (gId + (n + 1)))

/-- Third step: the stores of the loop that adds to the elements of a part. -/
def carryStores (output : ℕ → ExtensionField F) (point : ExtensionField F) :
    ℕ → ExtensionField F → List (ℕ × ExtensionField F)
  | 0, _ => []
  | i + 1, acc =>
    let acc := mulExt acc point
    (i, output i + acc) :: carryStores output point i acc

/-- `fp_divide`, as it is launched. The threads wait for each other between the steps. -/
def fpDivide (degreeBits order : ℕ) (input : ℕ → ExtensionField F) (zeta g : ExtensionField F)
    (b : DeviceBuffer (ExtensionField F)) : Option (DeviceBuffer (ExtensionField F)) := do
  let ids ← gridIds 1 128 divideTile
  let degree ← shlUnsigned degreeBits
  let point := if order = 0 then zeta else mulExt zeta g
  let blockLen := degree / divideTile
  let start := divideStart blockLen
  let b ← b.storeAll (ids.flatMap fun gId =>
    (divideLoop (fun i => input (start gId + i)) point blockLen 0).map fun w =>
      (start gId + w.1, w.2))
  let pointLen := squareWhile blockLen 32 1 point
  b.storeAll (ids.flatMap fun gId =>
    (carryStores (fun i => b.cell (start gId + i)) point blockLen
      (carryLoop (fun i => b.cell (start i)) pointLen gId (divideTile - 1 - gId) 0)).map fun w =>
        (start gId + w.1, w.2))

/-- The threads of `fp_shift_add` that have elements. -/
def shiftAddIds (degreeBits rowStep : ℕ) : Option (List ℕ) :=
  let threads := 32
  let blocks := u32 (u32 (2 ^ degreeBits) + (threads * 128 - 1)) / (threads * 128)
  gridIds blocks threads rowStep

/-- Element `i` of a thread of `fp_shift_add`. -/
def shiftAddAddress (rowStep : ℕ) (x : ℕ × ℕ) : ℕ := u32 (2 * (x.2 * rowStep + x.1)) / 2

/-- `fp_shift_add`, as it is launched: the input starts at the second element of the quotient. -/
def fpShiftAdd (degreeBits numPolys : ℕ) (quotient : ℕ → ExtensionField F)
    (alpha : ExtensionField F) (b : DeviceBuffer (ExtensionField F)) :
    Option (DeviceBuffer (ExtensionField F)) := do
  let nrows ← shlUnsigned degreeBits
  let rowStep := nrows / 128
  let ids ← shiftAddIds degreeBits rowStep
  let writes ← ids.mapM fun gId =>
    (powWhile (2 ^ 32) numPolys 33 1 numPolys alpha 1).map fun alphaPow =>
      (List.range 128).map fun i =>
        let k := shiftAddAddress rowStep (gId, i)
        (k, mulExt (b.cell k) alphaPow + quotient (k + 1))
  b.storeAll writes.flatten

/-! ### Loops -/

lemma mem_divideLoop {input : ℕ → ExtensionField F} {point acc : ExtensionField F} {n : ℕ}
    {w : ℕ × ExtensionField F} :
    w ∈ divideLoop input point n acc ↔
      w.1 < n ∧ w.2 = hornerFrom (fun j => input (w.1 + j)) point (n - w.1) acc := by
  obtain ⟨i, v⟩ := w
  induction n generalizing acc with
  | zero => simp [divideLoop]
  | succ n ih =>
    rw [divideLoop, List.mem_cons, ih, mulExt_eq]
    dsimp only
    by_cases heq : i = n
    · subst heq
      simp [hornerFrom]
    · have hstep : ∀ hlt : i < n, hornerFrom (fun j => input (i + j)) point (n + 1 - i) acc =
          hornerFrom (fun j => input (i + j)) point (n - i) (acc * point + input n) := by
        intro hlt
        have hsub : n + 1 - i = n - i + 1 := by omega
        have hlast : i + (n - i) = n := by omega
        rw [hsub, hornerFrom, hlast]
      constructor
      · rintro (h | ⟨hlt, hv⟩)
        · exact absurd (congrArg Prod.fst h) heq
        · exact ⟨by omega, hv.trans (hstep hlt).symm⟩
      · rintro ⟨hlt, hv⟩
        have hlt : i < n := by omega
        exact .inr ⟨hlt, hv.trans (hstep hlt)⟩

lemma mem_carryStores {output : ℕ → ExtensionField F} {point acc : ExtensionField F} {n : ℕ}
    {w : ℕ × ExtensionField F} :
    w ∈ carryStores output point n acc ↔
      w.1 < n ∧ w.2 = output w.1 + acc * point ^ (n - w.1) := by
  obtain ⟨i, v⟩ := w
  induction n generalizing acc with
  | zero => simp [carryStores]
  | succ n ih =>
    rw [carryStores, List.mem_cons, ih, mulExt_eq]
    dsimp only
    by_cases heq : i = n
    · subst heq
      simp
    · have hstep : ∀ hlt : i < n,
          acc * point ^ (n + 1 - i) = acc * point * point ^ (n - i) := by
        intro hlt
        have hsub : n + 1 - i = n - i + 1 := by omega
        rw [hsub, pow_succ', mul_assoc]
      constructor
      · rintro (h | ⟨hlt, hv⟩)
        · exact absurd (congrArg Prod.fst h) heq
        · exact ⟨by omega, by rw [hv, hstep hlt]⟩
      · rintro ⟨hlt, hv⟩
        have hlt : i < n := by omega
        exact .inr ⟨hlt, by rw [hv, hstep hlt]⟩

lemma carryLoop_eq (first : ℕ → ExtensionField F) (pointLen : ExtensionField F) (gId n : ℕ)
    (acc : ExtensionField F) :
    carryLoop first pointLen gId n acc =
      hornerFrom (fun j => first (gId + (j + 1))) pointLen n acc := by
  induction n generalizing acc with
  | zero => rfl
  | succ n ih => rw [carryLoop, hornerFrom, ih, mulExt_eq]

/-- The stores of loops over parts of length `n`, in terms of the elements of the parts. -/
lemma mem_flatMap_loops {ids : List ℕ} {n : ℕ} {start : ℕ → ℕ} {val : ℕ × ℕ → ExtensionField F}
    (loop : ℕ → List (ℕ × ExtensionField F))
    (hloop : ∀ gId w, w ∈ loop gId ↔ w.1 < n ∧ w.2 = val (gId, w.1)) (w : ℕ × ExtensionField F) :
    (w ∈ ids.flatMap fun gId => (loop gId).map fun w => (start gId + w.1, w.2)) ↔
      ∃ x ∈ ids ×ˢ List.range n, (start x.1 + x.2, val x) = w := by
  rw [List.mem_flatMap]
  constructor
  · rintro ⟨gId, hgId, hw⟩
    obtain ⟨⟨i, v⟩, hv, rfl⟩ := List.mem_map.mp hw
    obtain ⟨hi, rfl⟩ : i < n ∧ v = val (gId, i) := (hloop gId (i, v)).mp hv
    exact ⟨(gId, i), List.mem_product.mpr ⟨hgId, List.mem_range.mpr hi⟩, rfl⟩
  · rintro ⟨⟨gId, i⟩, hx, rfl⟩
    obtain ⟨hgId, hi⟩ := List.mem_product.mp hx
    refine ⟨gId, hgId, List.mem_map.mpr ⟨(i, val (gId, i)), ?_, rfl⟩⟩
    exact (hloop gId _).mpr ⟨List.mem_range.mp hi, rfl⟩

/-! ### Division -/

section Divide

variable {m : ℕ} (hm : m < 25)

include hm

lemma divideStart_eq {gId : ℕ} (hgId : gId < 128) : divideStart (2 ^ m) gId = gId * 2 ^ m := by
  have hpow : 2 ^ m ≤ 2 ^ 24 := Nat.pow_le_pow_right (by decide) (by omega)
  have hmul : gId * 2 ^ m ≤ 127 * 2 ^ m := Nat.mul_le_mul_right _ (by omega)
  rw [divideStart, u32_of_lt (by omega)]
  omega

/-- The steps of the threads hit every coefficient once. -/
lemma covers_divide {ids : List ℕ} (hids : ∀ gId, gId ∈ ids ↔ gId < divideTile) :
    Covers (ids ×ˢ List.range (2 ^ m)) (fun x => divideStart (2 ^ m) x.1 + x.2) 0
      (divideTile * 2 ^ m) := by
  have hmem : ∀ x : ℕ × ℕ, x ∈ ids ×ˢ List.range (2 ^ m) ↔ x.1 < 128 ∧ x.2 < 2 ^ m := by
    intro x
    rw [List.mem_product, hids, List.mem_range]
    rfl
  rw [covers_congr (f := fun x => x.1 * 2 ^ m + x.2)]
  · refine covers_stride (bijOn_pair (fun x hx => (hmem x).mp hx) ?_ ?_)
    · rintro ⟨g, i⟩ - ⟨g', i'⟩ - rfl rfl
      rfl
    · intro g hg i hi
      exact ⟨(g, i), (hmem _).mpr ⟨hg, hi⟩, rfl, rfl⟩
  · intro x hx
    rw [divideStart_eq hm ((hmem x).mp hx).1]

/-- The value of the coefficients from `k` on: what synthetic division leaves there. -/
lemma fpDivide_spec (order : ℕ) (input : ℕ → ExtensionField F) (zeta g : ExtensionField F)
    (b : DeviceBuffer (ExtensionField F)) (hlen : divideTile * 2 ^ m ≤ b.len) :
    ∃ b', fpDivide (m + 7) order input zeta g b = some b' ∧ ∀ k < divideTile * 2 ^ m,
      b'.cell k = evalSum (fun j => input (k + j)) (divideTile * 2 ^ m - k)
        (if order = 0 then zeta else zeta * g) := by
  have hvalid : ValidLaunch 1 1 128 := by decide
  have hdegree : shlUnsigned (m + 7) = some (divideTile * 2 ^ m) := by
    rw [shlUnsigned, if_pos (by omega), pow_add, mul_comm]
    rfl
  have hlength : divideTile * 2 ^ m / divideTile = 2 ^ m := Nat.mul_div_cancel_left _ (by decide)
  obtain ⟨ids, hgrid, hids⟩ := gridIds_spec divideTile hvalid (by decide) (by decide)
  have hcovers := covers_divide hm hids
  set L := 2 ^ m with hL
  set point := if order = 0 then zeta else mulExt zeta g with hpoint
  set start := divideStart L with hstart
  have hstart_eq : ∀ gId < 128, start gId = gId * L := fun gId hgId => divideStart_eq hm hgId
  -- the first step leaves the values of the parts
  obtain ⟨b₁, hb₁, hlen₁, hcell₁⟩ := b.storeAll_of_covers hcovers hlen
    (fun x => hornerFrom (fun j => input (start x.1 + (x.2 + j))) point (L - x.2) 0)
    (mem_flatMap_loops (fun gId => divideLoop (fun i => input (start gId + i)) point L 0)
      fun _ _ => mem_divideLoop)
  have hparts : ∀ gId < 128, ∀ i < L, b₁.cell (start gId + i) =
      evalSum (fun j => input (gId * L + i + j)) (L - i) point := by
    intro gId hgId i hi
    rw [hcell₁ (gId, i) (List.mem_product.mpr ⟨(hids _).mpr hgId, List.mem_range.mpr hi⟩),
      ← horner, horner_eq, hstart_eq gId hgId]
    simp only [add_assoc]
  have hlen_pow : squareWhile L 32 1 point = point ^ L := squareWhile_one (by omega) point
  -- the carry of a thread is the value of the parts after its own
  have hcarry : ∀ gId < 128,
      carryLoop (fun i => b₁.cell (start i)) (squareWhile L 32 1 point) gId
        (divideTile - 1 - gId) 0 =
        evalSum (fun j => input ((gId + 1) * L + j)) ((divideTile - 1 - gId) * L) point := by
    intro gId hgId
    rw [carryLoop_eq, ← horner, horner_eq, hlen_pow, ← evalSum_tiles]
    refine evalSum_congr (fun s hs => ?_) _
    have hpart : gId + (s + 1) < 128 := by
      rw [divideTile] at hs
      omega
    have h := hparts _ hpart 0 (Nat.two_pow_pos m)
    rw [add_zero, add_zero, Nat.sub_zero] at h
    rw [h]
    refine evalSum_congr (fun j _ => ?_) _
    congr 1
    ring
  obtain ⟨b₂, hb₂, -, hcell₂⟩ := b₁.storeAll_of_covers hcovers (hlen.trans hlen₁.ge)
    (fun x => b₁.cell (start x.1 + x.2) +
      carryLoop (fun i => b₁.cell (start i)) (squareWhile L 32 1 point) x.1
        (divideTile - 1 - x.1) 0 * point ^ (L - x.2))
    (mem_flatMap_loops (fun gId => carryStores (fun i => b₁.cell (start gId + i)) point L
      (carryLoop (fun i => b₁.cell (start i)) (squareWhile L 32 1 point) gId
        (divideTile - 1 - gId) 0)) fun _ _ => mem_carryStores)
  refine ⟨b₂, ?_, ?_⟩
  · rw [fpDivide, hgrid, hdegree]
    simp only [Option.bind_eq_bind, Option.bind_some, hlength]
    rw [hb₁]
    exact hb₂
  · intro k hk
    have hLpos : 0 < L := Nat.two_pow_pos m
    have hgId : k / L < 128 := Nat.div_lt_of_lt_mul (by rwa [mul_comm])
    have hi : k % L < L := Nat.mod_lt _ hLpos
    have hk_eq : k / L * L + k % L = k := Nat.div_add_mod' k L
    have hpoint' : point = if order = 0 then zeta else zeta * g := by
      rw [hpoint, mulExt_eq]
    have hcell := hcell₂ (k / L, k % L)
      (List.mem_product.mpr ⟨(hids _).mpr hgId, List.mem_range.mpr hi⟩)
    simp only at hcell
    rw [hparts _ hgId _ hi, hcarry _ hgId, hstart_eq _ hgId, hk_eq, hpoint'] at hcell
    have hrest : divideTile * L - k = L - k % L + (divideTile - 1 - k / L) * L := by
      have hsplit : divideTile * L = (divideTile - 1 - k / L) * L + L + k / L * L := by
        rw [← Nat.succ_mul, ← Nat.add_mul]
        congr 1
        rw [divideTile]
        omega
      omega
    have hnext : ∀ j, (k / L + 1) * L + j = k + (L - k % L + j) := by
      intro j
      rw [Nat.succ_mul]
      omega
    rw [hcell, hrest, evalSum_add]
    simp only [hnext]
    ring

/-- The elements after the coefficients stay. -/
lemma fpDivide_frame {order : ℕ} {input : ℕ → ExtensionField F} {zeta g : ExtensionField F}
    {b b' : DeviceBuffer (ExtensionField F)}
    (h : fpDivide (m + 7) order input zeta g b = some b') :
    b'.len = b.len ∧ ∀ a, divideTile * 2 ^ m ≤ a → b'.cell a = b.cell a := by
  have hdegree : shlUnsigned (m + 7) = some (divideTile * 2 ^ m) := by
    rw [shlUnsigned, if_pos (by omega), pow_add, mul_comm]
    rfl
  have hlength : divideTile * 2 ^ m / divideTile = 2 ^ m := Nat.mul_div_cancel_left _ (by decide)
  obtain ⟨ids, hgrid, hids⟩ := gridIds_spec divideTile (by decide : ValidLaunch 1 1 128)
    (by decide) (by decide)
  rw [fpDivide, hgrid, hdegree] at h
  simp only [Option.bind_eq_bind, Option.bind_some, hlength] at h
  obtain ⟨b₁, hb₁, hb'⟩ := Option.bind_eq_some_iff.mp h
  refine ⟨(DeviceBuffer.storeAll_len hb').trans (DeviceBuffer.storeAll_len hb₁), fun a ha => ?_⟩
  -- the parts end before the elements that stay
  have hne : ∀ gId ∈ ids, ∀ i < 2 ^ m, divideStart (2 ^ m) gId + i ≠ a := by
    intro gId hgId i hi
    have hlt := (covers_divide hm hids).lt
      (List.mem_product.mpr ⟨hgId, List.mem_range.mpr hi⟩)
    exact (hlt.trans_le ha).ne
  rw [DeviceBuffer.storeAll_of_forall_ne hb' ?_, DeviceBuffer.storeAll_of_forall_ne hb₁ ?_]
  · intro w hw
    obtain ⟨gId, hgId, hw⟩ := List.mem_flatMap.mp hw
    obtain ⟨v, hv, rfl⟩ := List.mem_map.mp hw
    exact hne gId hgId v.1 (mem_divideLoop.mp hv).1
  · intro w hw
    obtain ⟨gId, hgId, hw⟩ := List.mem_flatMap.mp hw
    obtain ⟨v, hv, rfl⟩ := List.mem_map.mp hw
    exact hne gId hgId v.1 (mem_carryStores.mp hv).1

end Divide

/-! ### Addition -/

section ShiftAdd

variable {m : ℕ} (hm : m < 25)

include hm

lemma shiftAddIds_spec :
    ∃ ids, shiftAddIds (m + 7) (2 ^ m) = some ids ∧ ∀ gId, gId ∈ ids ↔ gId < 2 ^ m := by
  have hpow : 2 ^ m ≤ 2 ^ 24 := Nat.pow_le_pow_right (by decide) (by omega)
  have hpos : 0 < 2 ^ m := Nat.two_pow_pos m
  have hdegree : 2 ^ (m + 7) = 2 ^ m * 128 := pow_add 2 m 7
  have hblocks : u32 (u32 (2 ^ (m + 7)) + (32 * 128 - 1)) / (32 * 128) =
      (2 ^ m * 128 + 4095) / 4096 := by
    rw [hdegree, u32_of_lt (x := 2 ^ m * 128) (by omega), u32_of_lt (by omega)]
  have hvalid : ValidLaunch 1 ((2 ^ m * 128 + 4095) / 4096) 32 := by
    refine ⟨⟨by decide, by decide⟩, ⟨by omega, by omega⟩, by decide, by decide⟩
  simp only [shiftAddIds, hblocks]
  exact gridIds_spec (2 ^ m) hvalid (by omega) (by omega)

lemma shiftAddAddress_eq {x : ℕ × ℕ} (hgId : x.1 < 2 ^ m) (hi : x.2 < 128) :
    shiftAddAddress (2 ^ m) x = x.2 * 2 ^ m + x.1 := by
  have hpow : 2 ^ m ≤ 2 ^ 24 := Nat.pow_le_pow_right (by decide) (by omega)
  have hmul : x.2 * 2 ^ m ≤ 127 * 2 ^ m := Nat.mul_le_mul_right _ (by omega)
  rw [shiftAddAddress, u32_of_lt (by omega), Nat.mul_div_cancel_left _ (by decide)]

/-- The rounds of the threads hit every coefficient once. -/
lemma covers_shiftAdd {ids : List ℕ} (hids : ∀ gId, gId ∈ ids ↔ gId < 2 ^ m) :
    Covers (ids ×ˢ List.range 128) (shiftAddAddress (2 ^ m)) 0 (128 * 2 ^ m) := by
  have hmem : ∀ x : ℕ × ℕ, x ∈ ids ×ˢ List.range 128 ↔ x.1 < 2 ^ m ∧ x.2 < 128 := by
    intro x
    rw [List.mem_product, hids, List.mem_range]
  rw [covers_congr (f := fun x => x.2 * 2 ^ m + x.1)]
  · refine covers_stride (bijOn_pair (fun x hx => ((hmem x).mp hx).symm) ?_ ?_)
    · rintro ⟨g, i⟩ - ⟨g', i'⟩ - rfl rfl
      rfl
    · intro i hi g hg
      exact ⟨(g, i), (hmem _).mpr ⟨hg, hi⟩, rfl, rfl⟩
  · intro x hx
    obtain ⟨hgId, hi⟩ := (hmem x).mp hx
    exact shiftAddAddress_eq hm hgId hi

lemma fpShiftAdd_spec {numPolys : ℕ} (hpolys : numPolys < 2 ^ 31) (quotient : ℕ → ExtensionField F)
    (alpha : ExtensionField F) (b : DeviceBuffer (ExtensionField F)) (hlen : 128 * 2 ^ m ≤ b.len) :
    ∃ b', fpShiftAdd (m + 7) numPolys quotient alpha b = some b' ∧ ∀ k < 128 * 2 ^ m,
      b'.cell k = b.cell k * alpha ^ numPolys + quotient (k + 1) := by
  have hdegree : shlUnsigned (m + 7) = some (2 ^ m * 128) := by
    rw [shlUnsigned, if_pos (by omega), pow_add]
    rfl
  have hstep : 2 ^ m * 128 / 128 = 2 ^ m := Nat.mul_div_cancel _ (by decide)
  obtain ⟨ids, hgrid, hids⟩ := shiftAddIds_spec hm
  have hcovers := covers_shiftAdd hm hids
  obtain ⟨b', hb', -, hcell⟩ := b.storeAll_of_covers hcovers hlen
    (fun x => mulExt (b.cell (shiftAddAddress (2 ^ m) x)) (alpha ^ numPolys) +
      quotient (shiftAddAddress (2 ^ m) x + 1)) fun _ => List.mem_map
  refine ⟨b', ?_, ?_⟩
  · have hpower : powWhile (2 ^ 32) numPolys 33 1 numPolys alpha 1 = some (alpha ^ numPolys) :=
      powWhile_eq hpolys (by decide) (by decide) alpha
    rw [fpShiftAdd, hdegree]
    simp only [Option.bind_eq_bind, Option.bind_some, hstep, hgrid, hpower, Option.map_some]
    rw [Fold.mapM_eq_some_map fun _ _ => rfl, Option.bind_some, ← hb']
    simp only [SProd.sprod, List.product, List.map_flatMap, List.map_map,
      List.flatten_eq_flatMap, List.flatMap_map]
    rfl
  · intro k hk
    obtain ⟨x, hx, rfl⟩ := hcovers.exists_eq (Nat.zero_le k) hk
    rw [hcell x hx, mulExt_eq]

end ShiftAdd

/-- Below 128 coefficients there is no step from one row to the next, and no thread has elements. -/
lemma shiftAddIds_nil {degreeBits : ℕ} (h : degreeBits < 7) {ids : List ℕ}
    (hids : shiftAddIds degreeBits (2 ^ degreeBits / 128) = some ids) : ids = [] := by
  have hpow : 2 ^ degreeBits < 2 ^ 7 := Nat.pow_lt_pow_right (by decide) h
  have hstep : 2 ^ degreeBits / 128 = 0 := Nat.div_eq_of_lt hpow
  rw [hstep, shiftAddIds, gridIds] at hids
  obtain ⟨ths, -, hths⟩ := Option.bind_eq_some_iff.mp hids
  rw [← Option.some.inj hths, List.filter_eq_nil_iff]
  simp

lemma fpShiftAdd_len {degreeBits numPolys : ℕ} {quotient : ℕ → ExtensionField F}
    {alpha : ExtensionField F} {b b' : DeviceBuffer (ExtensionField F)}
    (h : fpShiftAdd degreeBits numPolys quotient alpha b = some b') : b'.len = b.len := by
  obtain ⟨nrows, -, h⟩ := Option.bind_eq_some_iff.mp h
  obtain ⟨ids, -, h⟩ := Option.bind_eq_some_iff.mp h
  obtain ⟨writes, -, h⟩ := Option.bind_eq_some_iff.mp h
  exact DeviceBuffer.storeAll_len h

/-- From `2 ^ 31` polynomials on the loop over the bits of their number does not end. -/
lemma numPolys_lt_of_fpShiftAdd {m numPolys : ℕ} (hm : m < 25) {quotient : ℕ → ExtensionField F}
    {alpha : ExtensionField F} {b b' : DeviceBuffer (ExtensionField F)}
    (h : fpShiftAdd (m + 7) numPolys quotient alpha b = some b') : numPolys < 2 ^ 31 := by
  by_contra hlarge
  have hnone : powWhile (2 ^ 32) numPolys 33 1 numPolys alpha 1 = none :=
    powWhile_eq_none (k := 31) (not_lt.mp hlarge) (.inr ⟨0, by omega, rfl⟩) _ _ _
  have hstep : 2 ^ (m + 7) / 128 = 2 ^ m := by
    rw [pow_add]
    exact Nat.mul_div_cancel _ (by decide)
  obtain ⟨ids, hgrid, hids⟩ := shiftAddIds_spec hm
  obtain ⟨nrows, hnrows, h⟩ := Option.bind_eq_some_iff.mp h
  obtain rfl : 2 ^ (m + 7) = nrows := by
    rw [shlUnsigned, if_pos (by omega)] at hnrows
    exact Option.some.inj hnrows
  simp only [hstep, hgrid, Option.bind_eq_bind, Option.bind_some] at h
  obtain ⟨writes, hwrites, -⟩ := Option.bind_eq_some_iff.mp h
  cases ids with
  | nil => exact absurd ((hids 0).mpr (Nat.two_pow_pos m)) List.not_mem_nil
  | cons gId ids =>
    rw [List.mapM_cons, hnone] at hwrites
    cases hwrites

/-! ### All coefficients -/

/-- What `fp_divide` is for: its loops hit every coefficient once, and leave the value of the
coefficients from there on, which is the quotient after the first one. -/
structure Divides (degreeBits : ℕ) : Prop where
  covers : ∃ ids degree, gridIds 1 128 divideTile = some ids ∧ shlUnsigned degreeBits = some degree ∧
    Covers (ids ×ˢ List.range (degree / divideTile))
      (fun x => divideStart (degree / divideTile) x.1 + x.2) 0 (2 ^ degreeBits)
  result : ∀ (order : ℕ) (input : ℕ → QuadraticExtension) (zeta g : QuadraticExtension)
    (b : DeviceBuffer QuadraticExtension), 2 ^ degreeBits ≤ b.len →
      ∃ b', fpDivide degreeBits order input zeta g b = some b' ∧ ∀ k < 2 ^ degreeBits,
        b'.cell k = evalSum (fun j => input (k + j)) (2 ^ degreeBits - k)
          (if order = 0 then zeta else zeta * g)

/-- What `fp_shift_add` is for: its rounds hit every coefficient once, and add the quotient to the
shifted polynomial. -/
structure ShiftAdds (degreeBits numPolys : ℕ) : Prop where
  covers : ∃ ids nrows, shlUnsigned degreeBits = some nrows ∧
    shiftAddIds degreeBits (nrows / 128) = some ids ∧
      Covers (ids ×ˢ List.range 128) (shiftAddAddress (nrows / 128)) 0 (2 ^ degreeBits)
  result : ∀ (quotient : ℕ → QuadraticExtension) (alpha : QuadraticExtension)
    (b : DeviceBuffer QuadraticExtension), 2 ^ degreeBits ≤ b.len →
      ∃ b', fpShiftAdd degreeBits numPolys quotient alpha b = some b' ∧ ∀ k < 2 ^ degreeBits,
        b'.cell k = b.cell k * alpha ^ numPolys + quotient (k + 1)

section Large

variable {degreeBits : ℕ} (h : 7 ≤ degreeBits) (h' : degreeBits < 32)

include h h'

lemma divides_of_le : Divides degreeBits := by
  obtain ⟨m, rfl⟩ := Nat.exists_eq_add_of_le' h
  have hm : m < 25 := by omega
  have hdegree : 2 ^ (m + 7) = divideTile * 2 ^ m := by
    rw [pow_add, mul_comm]
    rfl
  have hlength : divideTile * 2 ^ m / divideTile = 2 ^ m := Nat.mul_div_cancel_left _ (by decide)
  constructor
  · obtain ⟨ids, hgrid, hids⟩ := gridIds_spec divideTile (by decide : ValidLaunch 1 1 128)
      (by decide) (by decide)
    refine ⟨ids, 2 ^ (m + 7), hgrid, if_pos h', ?_⟩
    rw [hdegree, hlength]
    exact covers_divide hm hids
  · rw [hdegree]
    exact fpDivide_spec hm

lemma shiftAdds_of_le {numPolys : ℕ} (hpolys : numPolys < 2 ^ 31) :
    ShiftAdds degreeBits numPolys := by
  obtain ⟨m, rfl⟩ := Nat.exists_eq_add_of_le' h
  have hm : m < 25 := by omega
  have hdegree : 2 ^ (m + 7) = 128 * 2 ^ m := by
    rw [pow_add, mul_comm]
    rfl
  have hstep : 128 * 2 ^ m / 128 = 2 ^ m := Nat.mul_div_cancel_left _ (by decide)
  constructor
  · obtain ⟨ids, hgrid, hids⟩ := shiftAddIds_spec hm
    refine ⟨ids, 2 ^ (m + 7), if_pos h', ?_, ?_⟩
    · rwa [hdegree, hstep]
    · rw [hdegree, hstep]
      exact covers_shiftAdd hm hids
  · rw [hdegree]
    exact fpShiftAdd_spec hm hpolys

end Large

/-- Below 128 coefficients the parts of the threads are empty. -/
theorem fpDivides_iff {degreeBits : ℕ} (hlt : degreeBits < 32) :
    Divides degreeBits ↔ 7 ≤ degreeBits := by
  constructor
  · intro h
    by_contra hsmall
    obtain ⟨ids, degree, -, hdegree, hcovers⟩ := h.covers
    have hpow : 2 ^ degreeBits < 128 := Nat.pow_lt_pow_right (n := 7) (by decide) (by omega)
    obtain rfl : 2 ^ degreeBits = degree := by
      rw [shlUnsigned, if_pos hlt] at hdegree
      exact Option.some.inj hdegree
    have hlen : 2 ^ degreeBits / divideTile = 0 := Nat.div_eq_of_lt hpow
    rw [hlen, List.range_zero, List.product_nil, covers_nil_iff] at hcovers
    have hsome := Nat.two_pow_pos degreeBits
    omega
  · exact fun h => divides_of_le h hlt

/-- And there is no step from one row of coefficients to the next. -/
theorem shiftAdds_iff {degreeBits numPolys : ℕ} (hlt : degreeBits < 32)
    (hpolys : numPolys < 2 ^ 31) : ShiftAdds degreeBits numPolys ↔ 7 ≤ degreeBits := by
  constructor
  · intro h
    by_contra hsmall
    obtain ⟨ids, nrows, hnrows, hids, hcovers⟩ := h.covers
    obtain rfl : 2 ^ degreeBits = nrows := by
      rw [shlUnsigned, if_pos hlt] at hnrows
      exact Option.some.inj hnrows
    rw [shiftAddIds_nil (by omega) hids, List.nil_product, covers_nil_iff] at hcovers
    have hsome := Nat.two_pow_pos degreeBits
    omega
  · exact fun h => shiftAdds_of_le h hlt hpolys

end MegaZK
