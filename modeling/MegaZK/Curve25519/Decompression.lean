import MegaZK.BigUint.Run
import MegaZK.BigUint.Targets
import MegaZK.Curve25519.SquareRoot

/-! # Decompression of curve points

The generator of `point_decompress` and its kernel. The host calls the decompression of its curve
library, which is a parameter. -/

namespace MegaZK

open Words Horner Radix FieldElement51

/-- The 32 bytes of 256 bits: the highest byte first, the highest bit of a byte first. -/
def packBits (bit : ℕ → Bool) : List ℕ :=
  (List.range 32).map fun k =>
    (List.range 8).foldl
      (fun byte bitIdx => byte ||| (bit (8 * (31 - k) + bitIdx)).toNat <<< (7 - bitIdx)) 0

/-- `get_bool_target`, which panics for other values. -/
def getBoolTarget (x : GoldilocksField) : Option Bool :=
  if x = 0 then some false else if x = 1 then some true else none

/-! ### The kernel -/

/-- `Ed25519Base::order`. -/
def ed25519OrderBigUint : BigUint := BigUint.ofDigits (orderDigits.getD 0 []) (by decide)

section Kernel

variable (read : ℕ → GoldilocksField)

/-- The coordinates that `curve_point_decompression_generator_new_kernel` computes from the bytes
of a point. -/
def decompressBytes (bytes : List ℕ) : Words (FieldElement51 × FieldElement51) := do
  let y := fromBytes fun i => bytes.getD i 0
  let z := one
  let yy ← y.square
  let u ← yy.sub z
  let v ← (← yy.mul edwardsD).add z
  let x ← sqrtRatioI u v
  let negate := bytes.getD 31 0 >>> 7 ≠ 0
  let x ← if negate then x.neg else pure x
  return (x, y)

/-- The limbs of a coordinate. -/
def coordinateLimbs (bytes : List ℕ) : Option (List GoldilocksField) := do
  let x ← (BigUint.fromBytesLe fun i => bytes.getD i 0).mod ed25519OrderBigUint
  return x.writeDigits 8

/-- `curve_point_decompression_generator_new_kernel`. -/
def curvePointDecompressionGeneratorNew : Words (Option (List GoldilocksField)) := do
  let bytes := packBits fun i => (read i).val ≠ 0
  let (x, y) ← decompressBytes bytes
  let s ← x.asBytes
  let t ← y.asBytes
  return do
    let xLimbs ← coordinateLimbs s
    let yLimbs ← coordinateLimbs t
    return xLimbs ++ yLimbs

end Kernel

/-! ### The host -/

section Host

variable (decompress : List ℕ → Option (List ℕ × List ℕ)) (read : ℕ → GoldilocksField)

/-- `Ed25519Base::from_noncanonical_biguint`, and `to_canonical_biguint` of it. -/
def ed25519Base (bytes : List ℕ) : ℕ :=
  evalSum (fun i => bytes.getD i 0) bytes.length 256 % 2 ^ 256 % ed25519Order

/-- `CurvePointDecompressionGenerator::run_once`. -/
def curvePointDecompressionRunOnce : Option (List GoldilocksField) := do
  let bits ← (List.range 256).mapM fun i => getBoolTarget (read i)
  let bytes := packBits fun i => bits.getD i false
  let (x, y) ← decompress bytes
  let xLimbs ← setBigUintTarget 8 (ed25519Base x)
  let yLimbs ← setBigUintTarget 8 (ed25519Base y)
  return xLimbs ++ yLimbs

/-- The number that the low 255 bits of a compressed point give. -/
def compressedY (bytes : List ℕ) : Ed25519Field :=
  (evalSum (fun i => bytes.getD i 0) 32 256 % 2 ^ 255 : ℕ)

/-- What the curve library's `decompress` returns: the low 255 bits as the second coordinate, and
as the first the even root of `(y ^ 2 - 1) / (d * y ^ 2 + 1)`, negated by the top bit. -/
def Decompresses : Prop :=
  ∀ bytes x y, decompress bytes = some (x, y) → Encodes y (compressedY bytes) ∧
    ∃ root : Ed25519Field, Even root.val ∧
      (-121665 / 121666 * compressedY bytes ^ 2 + 1) * root ^ 2 = compressedY bytes ^ 2 - 1 ∧
      Encodes x (if bytes.getD 31 0 >>> 7 = 0 then root else -root)

end Host

/-! ### The point that the kernel computes -/

section Points

variable {bytes : List ℕ} {root : Ed25519Field}

/-- The bytes that both sides read. -/
lemma forall_mem_packBits (bit : ℕ → Bool) : ∀ byte ∈ packBits bit, byte < 256 := by
  intro byte hbyte
  obtain ⟨k, -, rfl⟩ := List.mem_map.mp hbyte
  have hfold : ∀ (l : List ℕ) (acc : ℕ), acc < 2 ^ 8 → l.foldl (fun byte bitIdx =>
      byte ||| (bit (8 * (31 - k) + bitIdx)).toNat <<< (7 - bitIdx)) acc < 2 ^ 8 := by
    intro l
    induction l with
    | nil => exact fun _ h => h
    | cons bitIdx l ih =>
      intro acc hacc
      refine ih _ (Nat.or_lt_two_pow hacc ?_)
      have hbit := Bool.toNat_le (bit (8 * (31 - k) + bitIdx))
      have hpow : 2 ^ (7 - bitIdx) ≤ 2 ^ 7 := Nat.pow_le_pow_right two_pos (Nat.sub_le _ _)
      rw [Nat.shiftLeft_eq]
      exact (Nat.mul_le_mul hbit hpow).trans_lt (by norm_num)
  exact hfold _ 0 (by norm_num)

lemma getD_lt_of_forall_mem (h : ∀ byte ∈ bytes, byte < 256) (i : ℕ) : bytes.getD i 0 < 256 := by
  rcases lt_or_ge i bytes.length with hi | hi
  · rw [List.getD_eq_getElem _ _ hi]
    exact h _ (List.getElem_mem hi)
  · rw [List.getD_eq_default _ _ hi]
    norm_num

lemma denotes_fromBytes (h : ∀ byte ∈ bytes, byte < 256) :
    (fromBytes fun i => bytes.getD i 0).Denotes (compressedY bytes) := by
  obtain ⟨hvalue, hbelow⟩ := fromBytes_value (getD_lt_of_forall_mem h)
  exact ⟨by rw [toField, hvalue, compressedY], hbelow.mono (by norm_num)⟩

lemma denotes_one : one.Denotes 1 := by
  refine ⟨?_, by constructor <;> decide⟩
  rw [toField, show one.value = 1 by decide, Nat.cast_one]

lemma ne_zero_121666 : (121666 : Ed25519Field) ≠ 0 := by
  intro h
  have hdvd := (ZMod.natCast_eq_zero_iff 121666 ed25519Order).mp (by exact_mod_cast h)
  exact absurd (Nat.le_of_dvd (by norm_num) hdvd) (by decide)

/-- The constant of the curve. -/
lemma toField_edwardsD : edwardsD.toField = -121665 / 121666 := by
  rw [eq_div_iff ne_zero_121666, eq_neg_iff_add_eq_zero, toField]
  have hdvd : ed25519Order ∣ edwardsD.value * 121666 + 121665 := by decide
  exact_mod_cast (ZMod.natCast_eq_zero_iff _ _).mpr hdvd

/-- The denominator of the ratio vanishes for no point. -/
lemma denominator_ne_zero {y : Ed25519Field}
    (h : (-121665 / 121666 * y ^ 2 + 1) * root ^ 2 = y ^ 2 - 1) :
    -121665 / 121666 * y ^ 2 + 1 ≠ 0 := by
  intro hzero
  rw [hzero, zero_mul] at h
  rw [sub_eq_zero.mp h.symm, mul_one, ← div_self ne_zero_121666, ← add_div,
    div_eq_zero_iff, or_iff_left ne_zero_121666] at hzero
  have hone : (1 : Ed25519Field) = 0 := by linear_combination hzero
  exact one_ne_zero hone

/-- The even root is unique. -/
lemma eq_of_even {v root' : Ed25519Field} (hv : v ≠ 0) (h : v * root' ^ 2 = v * root ^ 2)
    (heven : Even root.val) (heven' : Even root'.val) : root' = root := by
  rcases sq_eq_sq_iff_eq_or_eq_neg.mp (mul_left_cancel₀ hv h) with heq | hneg
  · exact heq
  · have hodd : Odd ed25519Order := by decide
    rw [hneg, ZMod.neg_val] at heven'
    split_ifs at heven' with hzero
    · rw [hneg, hzero, neg_zero]
    · have hsum := Nat.even_sub (ZMod.val_lt root).le |>.mp heven'
      exact absurd (hsum.mpr heven) (Nat.not_even_iff_odd.mpr hodd)

lemma Denotes.add_one {a : FieldElement51} {x : Ed25519Field} (ha : a.toField = x)
    (hbelow : a.Below (2 ^ 51 + 2 ^ 18)) : Exact (a.add one) fun r => r.Denotes (x + 1) := by
  have hone : one.Below 2 := by constructor <;> decide
  refine (add_exact hbelow hone (by norm_num)).mono ?_
  rintro r rfl
  obtain ⟨h0, h1, h2, h3, h4⟩ := hbelow
  refine ⟨?_, below_mk ?_ ?_ ?_ ?_ ?_⟩
  · rw [toField_add_limbs, ha, denotes_one.1]
  all_goals
    simp only [one]
    omega

/-- The point of a root. -/
lemma decompressBytes_exact (h : ∀ byte ∈ bytes, byte < 256) (heven : Even root.val)
    (hroot : (-121665 / 121666 * compressedY bytes ^ 2 + 1) * root ^ 2 =
      compressedY bytes ^ 2 - 1) :
    Exact (decompressBytes bytes) fun point =>
      point.1.Denotes (if bytes.getD 31 0 >>> 7 = 0 then root else -root) ∧
        point.2.Denotes (compressedY bytes) := by
  have hd : edwardsD.Below (2 ^ 54) := by constructor <;> decide
  have hy := denotes_fromBytes h
  have hv := denominator_ne_zero hroot
  generalize compressedY bytes = y at hy hv hroot
  unfold decompressBytes
  refine .bind hy.square fun yy hyy => ?_
  refine .bind (sub_exact hyy.2 denotes_one.2) ?_
  rintro u ⟨hu, hubelow⟩
  rw [hyy.1, denotes_one.1] at hu
  refine .bind (mul_exact hyy.2 hd) ?_
  rintro dyy ⟨hdyy, hdbelow⟩
  rw [hyy.1, toField_edwardsD, mul_comm] at hdyy
  refine .bind (Denotes.add_one hdyy hdbelow) fun v hvden => ?_
  refine .bind (sqrtRatioI_exact ⟨hu, hubelow.mono (by norm_num)⟩ hvden hroot.symm) ?_
  rintro x ⟨root', hx, heven', hroot'⟩
  obtain rfl : root' = root := eq_of_even hv (hroot'.trans hroot.symm) heven heven'
  by_cases hsign : bytes.getD 31 0 >>> 7 = 0
  · rw [if_neg (not_not.mpr hsign), if_pos hsign, pure_bind]
    exact .pure ⟨hx, hy⟩
  · rw [if_pos hsign, if_neg hsign]
    refine .bind hx.neg fun negX hneg => ?_
    exact .pure ⟨hneg, hy⟩

end Points

/-! ### The limbs -/

section Limbs

variable {bytes : List ℕ} {x : Ed25519Field}

lemma value_ed25519OrderBigUint : ed25519OrderBigUint.value = ed25519Order := by decide

/-- The remainder of a canonical number is the number. -/
lemma coordinateLimbs_eq (h : Encodes bytes x) :
    coordinateLimbs bytes = some (u32Limbs 8 x.val) := by
  have hvalue : (BigUint.fromBytesLe fun i => bytes.getD i 0).value = x.val := by
    rw [BigUint.fromBytesLe_value, ← h.value]
    exact evalSum_congr (fun i _ => Nat.mod_eq_of_lt (h.getD_lt i)) _
  have hlt : (BigUint.fromBytesLe fun i => bytes.getD i 0).lt ed25519OrderBigUint = true := by
    have hlength : (BigUint.fromBytesLe fun i => bytes.getD i 0).length =
        ed25519OrderBigUint.length := rfl
    rw [BigUint.lt, if_neg (not_not.mpr hlength), BigUint.ltLoop_iff]
    have hval := ZMod.val_lt x
    rw [← hvalue, ← value_ed25519OrderBigUint] at hval
    exact hval
  have hmod : (BigUint.fromBytesLe fun i => bytes.getD i 0).mod ed25519OrderBigUint =
      some (BigUint.fromBytesLe fun i => bytes.getD i 0) := by
    rw [BigUint.mod, show ed25519OrderBigUint.isZero = false by decide, if_neg Bool.false_ne_true,
      if_pos hlt]
  rw [coordinateLimbs, hmod]
  refine congrArg some ?_
  rw [(BigUint.fromBytesLe_spec _).2.writeDigits_eq, hvalue]

lemma setBigUintTarget_ed25519Base (h : Encodes bytes x) :
    setBigUintTarget 8 (ed25519Base bytes) = some (u32Limbs 8 x.val) := by
  have hlt : x.val < ed25519Order := ZMod.val_lt x
  have horder : ed25519Order < 2 ^ 256 := by decide
  rw [ed25519Base, h.length, h.value, Nat.mod_eq_of_lt (hlt.trans horder), Nat.mod_eq_of_lt hlt,
    setBigUintTarget, if_pos (hlt.trans (by decide))]

end Limbs

section Bits

variable {read : ℕ → GoldilocksField}

/-- The bits that the host reads are those that the kernel finds not to be zero. -/
lemma getD_mapM_getBoolTarget {l : List ℕ} {bits : List Bool}
    (h : l.mapM (fun i => getBoolTarget (read i)) = some bits) {i : ℕ} (hi : i < l.length) :
    bits.getD i false = decide ((read (l.getD i 0)).val ≠ 0) := by
  induction l generalizing bits i with
  | nil => exact absurd hi (Nat.not_lt_zero i)
  | cons k l ih =>
    rw [List.mapM_cons, Option.bind_eq_bind, Option.bind_eq_some_iff] at h
    obtain ⟨bit, hbit, h⟩ := h
    rw [Option.bind_eq_bind, Option.bind_eq_some_iff] at h
    obtain ⟨rest, hrest, h⟩ := h
    obtain rfl := Option.some.inj h
    cases i with
    | zero =>
      rw [getBoolTarget] at hbit
      have hval : (read k).val ≠ 0 ↔ read k ≠ 0 := (ZMod.val_eq_zero (read k)).not
      rw [List.getD_cons_zero, List.getD_cons_zero, decide_eq_decide.mpr hval]
      split_ifs at hbit with hzero hone
      · rw [← Option.some.inj hbit, decide_eq_false (not_not.mpr hzero)]
      · rw [← Option.some.inj hbit, decide_eq_true hzero]
    | succ i =>
      rw [List.getD_cons_succ, List.getD_cons_succ]
      exact ih hrest (Nat.lt_of_succ_lt_succ hi)

lemma packBits_congr {bit bit' : ℕ → Bool} (h : ∀ i < 256, bit i = bit' i) :
    packBits bit = packBits bit' := by
  apply List.map_congr_left
  intro k hk
  have hlt := List.mem_range.mp hk
  apply List.foldl_ext
  intro byte bitIdx hbitIdx
  have hbit := List.mem_range.mp hbitIdx
  rw [h (8 * (31 - k) + bitIdx) (by omega)]

end Bits

/-- The square root of a ratio that is a square, and with it the limbs of every point that the host
decompresses. -/
theorem sqrtRatioI_and_decompression (decompress : List ℕ → Option (List ℕ × List ℕ))
    (hdecompress : Decompresses decompress) :
    (∀ u v : FieldElement51, u.Below (2 ^ 54) → v.Below (2 ^ 54) → v.toField ≠ 0 →
      IsSquare (u.toField / v.toField) →
      Exact (sqrtRatioI u v) fun r =>
        Even r.toField.val ∧ v.toField * r.toField ^ 2 = u.toField) ∧
    ∀ (read : ℕ → GoldilocksField) (limbs : List GoldilocksField),
      curvePointDecompressionRunOnce decompress read = some limbs →
      Exact (curvePointDecompressionGeneratorNew read) (· = some limbs) := by
  constructor
  · intro u v hu hv hne hsquare
    obtain ⟨s, hs⟩ := hsquare
    have hratio : u.toField = v.toField * s ^ 2 := by
      rw [pow_two, ← hs, mul_div_cancel₀ _ hne]
    refine (sqrtRatioI_exact ⟨rfl, hu⟩ ⟨rfl, hv⟩ hratio).mono ?_
    rintro r ⟨root, hr, heven, hroot⟩
    rw [hr.1]
    exact ⟨heven, hroot⟩
  · intro read limbs h
    rw [curvePointDecompressionRunOnce, Option.bind_eq_bind, Option.bind_eq_some_iff] at h
    obtain ⟨bits, hbits, h⟩ := h
    have hbytes : packBits (fun i => bits.getD i false) =
        packBits fun i => decide ((read i).val ≠ 0) := by
      apply packBits_congr
      intro i hi
      rw [getD_mapM_getBoolTarget hbits (by simpa using hi),
        List.getD_eq_getElem _ _ (by simpa using hi), List.getElem_range]
    rw [hbytes, Option.bind_eq_bind, Option.bind_eq_some_iff] at h
    obtain ⟨⟨xBytes, yBytes⟩, hpoint, h⟩ := h
    obtain ⟨hy, root, heven, hroot, hx⟩ := hdecompress _ _ _ hpoint
    change (do
      let xLimbs ← setBigUintTarget 8 (ed25519Base xBytes)
      let yLimbs ← setBigUintTarget 8 (ed25519Base yBytes)
      return xLimbs ++ yLimbs) = some limbs at h
    rw [setBigUintTarget_ed25519Base hx, setBigUintTarget_ed25519Base hy] at h
    obtain rfl := Option.some.inj h
    refine .bind (decompressBytes_exact (forall_mem_packBits _) heven hroot) ?_
    rintro ⟨x, y⟩ ⟨hxDenotes, hyDenotes⟩
    refine .bind hxDenotes.asBytes ?_
    rintro s rfl
    refine .bind hyDenotes.asBytes ?_
    rintro t rfl
    refine .pure ?_
    rw [coordinateLimbs_eq (encodes_bytesOf _), coordinateLimbs_eq (encodes_bytesOf _)]
    rfl

/-- Decompression of the point whose second coordinate is zero. -/
def decompressZero (bytes : List ℕ) : Option (List ℕ × List ℕ) :=
  if bytes = List.replicate 32 0 then
    some (bytesOf sqrtM1.toField.val, bytesOf (0 : Ed25519Field).val)
  else none

lemma decompresses_decompressZero : Decompresses decompressZero := by
  intro bytes x y h
  rw [decompressZero] at h
  split_ifs at h with hbytes
  obtain ⟨rfl, rfl⟩ := Prod.mk.inj (Option.some.inj h)
  have hzero : compressedY bytes = 0 := by
    rw [hbytes, compressedY, show evalSum (fun i => (List.replicate 32 0).getD i 0) 32 256 = 0 by
      decide, Nat.zero_mod, Nat.cast_zero]
  have hsign : bytes.getD 31 0 >>> 7 = 0 := by
    rw [hbytes]
    rfl
  have heven : Even sqrtM1.toField.val := by
    rw [toField, ZMod.val_natCast]
    decide
  rw [hzero]
  refine ⟨encodes_bytesOf 0, sqrtM1.toField, heven, ?_, ?_⟩
  · rw [sqrtM1_sq]
    ring
  · rw [if_pos hsign]
    exact encodes_bytesOf _

lemma runOnce_decompressZero : curvePointDecompressionRunOnce decompressZero (fun _ => 0) =
    some (u32Limbs 8 sqrtM1.toField.val ++ u32Limbs 8 (0 : Ed25519Field).val) := by
  have hbits : (List.range 256).mapM (fun _ => getBoolTarget 0) =
      some ((List.range 256).map fun _ => false) := List.mapM_pure
  have hbytes : packBits (fun i => ((List.range 256).map fun _ => false).getD i false) =
      List.replicate 32 0 := by
    have hfalse : ∀ i < 256, ((List.range 256).map fun _ => false).getD i false = false := by
      intro i hi
      have hlength : i < ((List.range 256).map fun _ => false).length := by
        rwa [List.length_map, List.length_range]
      rw [List.getD_eq_getElem _ _ hlength, List.getElem_map]
    exact (packBits_congr hfalse).trans rfl
  have hpoint : decompressZero (List.replicate 32 0) =
      some (bytesOf sqrtM1.toField.val, bytesOf (0 : Ed25519Field).val) := if_pos rfl
  simp only [curvePointDecompressionRunOnce, hbits, hbytes, hpoint, Option.bind_eq_bind,
    Option.bind_some, setBigUintTarget_ed25519Base (encodes_bytesOf _), Option.pure_def]

theorem sqrtRatioI_and_decompression_zero :
    Exact (sqrtRatioI minusOne one) (fun r =>
      Even r.toField.val ∧ one.toField * r.toField ^ 2 = minusOne.toField) ∧
    Exact (curvePointDecompressionGeneratorNew fun _ => 0) (· = some
      (u32Limbs 8 sqrtM1.toField.val ++ u32Limbs 8 (0 : Ed25519Field).val)) := by
  have hone : one.toField = 1 := denotes_one.1
  have hroots := sqrtRatioI_and_decompression decompressZero decompresses_decompressZero
  refine ⟨hroots.1 minusOne one ?_ denotes_one.2 ?_ ?_, hroots.2 _ _ runOnce_decompressZero⟩
  · constructor <;> decide
  · rw [hone]
    exact one_ne_zero
  · rw [hone, toField_minusOne, div_one, ← sqrtM1_sq]
    exact IsSquare.sq _

end MegaZK
