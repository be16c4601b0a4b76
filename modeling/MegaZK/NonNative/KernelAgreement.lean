import MegaZK.NonNative.KernelSpecs

/-! # Agreement of the kernels for numbers in limbs

When the kernels write the limbs and flags of the generators of the host. -/

namespace MegaZK

open Horner Radix

/-- Both sides give the same outputs. -/
def Agree (device host : Option (List GoldilocksField)) : Prop :=
  ∃ outputs, device = some outputs ∧ host = some outputs

lemma agree_some_iff {l l' : List GoldilocksField} : Agree (some l) (some l') ↔ l = l' := by
  constructor
  · rintro ⟨outputs, hl, hl'⟩
    exact (Option.some.inj hl).trans (Option.some.inj hl').symm
  · rintro rfl
    exact ⟨l, rfl, rfl⟩

lemma not_agree_none {h : Option (List GoldilocksField)} : ¬ Agree none h := by
  rintro ⟨outputs, hnone, -⟩
  cases hnone

/-! ### Limbs -/

lemma writeDigits_append_iff {x : BigUint} {n v : ℕ} {l l' : List GoldilocksField} :
    x.writeDigits n ++ l = u32Limbs n v ++ l' ↔ x.writeDigits n = u32Limbs n v ∧ l = l' := by
  constructor
  · intro h
    exact List.append_inj h (by simp [BigUint.writeDigits, u32Limbs])
  · rintro ⟨h, rfl⟩
    rw [h]

/-- Numbers that fit are told apart by their limbs. -/
lemma u32Limbs_inj {n v w : ℕ} (hv : v < (2 ^ 32) ^ n) (hw : w < (2 ^ 32) ^ n) :
    u32Limbs n v = u32Limbs n w ↔ v = w := by
  refine ⟨fun h => ?_, fun h => by rw [h]⟩
  rw [← PrimeDigits.evalSum_digits hv, ← PrimeDigits.evalSum_digits hw]
  apply evalSum_congr
  intro i hi
  have horder : 2 ^ 32 < goldilocksOrder := by decide
  have hdigit (u : ℕ) : u / (2 ^ 32) ^ i % 2 ^ 32 < goldilocksOrder :=
    (Nat.mod_lt _ (by norm_num)).trans horder
  exact PrimeDigits.eq_of_natCast_eq (hdigit v) (hdigit w)
    (List.map_inj_left.mp h i (List.mem_range.mpr hi))

lemma length_u32Limbs (n v : ℕ) : (u32Limbs n v).length = n := by simp [u32Limbs]

/-- The number in the limbs of a number. -/
lemma getLimbs_u32Limbs {n v : ℕ} (hv : v < (2 ^ 32) ^ n) : Host.getLimbs (u32Limbs n v) = v := by
  have hlength := length_u32Limbs n v
  rw [Host.getLimbs, getBigUintTarget_eq, hlength]
  conv_rhs => rw [← PrimeDigits.evalSum_digits hv]
  apply evalSum_congr
  intro i hi
  have horder : 2 ^ 32 < goldilocksOrder := by decide
  rw [List.getD_eq_getElem _ _ (hlength.symm ▸ hi)]
  simp only [u32Limbs, List.getElem_map, List.getElem_range]
  exact ZMod.val_natCast_of_lt ((Nat.mod_lt _ (by norm_num)).trans horder)

/-- The limbs of a quotient and of a remainder are right exactly where the division is. -/
lemma BigUint.DivRemResult.limbs_eq_iff {x y q r : BigUint} (h : BigUint.DivRemResult x y q r)
    {m n : ℕ} (hq : x.value / y.value < (2 ^ 32) ^ n) (hr : x.value % y.value < (2 ^ 32) ^ m) :
    q.writeDigits n = u32Limbs n (x.value / y.value) ∧
        r.writeDigits m = u32Limbs m (x.value % y.value) ↔ BigUint.DivisionExact x y := by
  rw [h.clean_quotient.writeDigits_eq, h.clean_remainder.writeDigits_eq,
    u32Limbs_inj (h.quotient_le.trans_lt hq) hq, ← h.eq_iff]
  apply and_congr_right
  intro heq
  exact u32Limbs_inj ((h.remainder_le heq).trans_lt hr) hr

/-- A trimmed number, or the zero of one digit. -/
def BigUint.Formed (x : BigUint) : Prop := x.Trimmed ∨ x = BigUint.zero

namespace BigUint.Formed

variable {x : BigUint}

lemma clean (h : x.Formed) : x.Clean := by
  rcases h with htrim | rfl
  · exact htrim.clean
  · exact canonical_zero.clean

lemma length_le (h : x.Formed) {n : ℕ} (hlt : x.value < (2 ^ 32) ^ (n + 1)) :
    x.length ≤ n + 1 := by
  rcases h with htrim | rfl
  · exact htrim.length_le hlt
  · exact Nat.succ_le_succ (Nat.zero_le n)

end BigUint.Formed

lemma Reduced.formed {field : NonNativeField} {a : ℕ} {x : BigUint} (h : Reduced field a x) :
    x.Formed := by
  rcases h.form with ⟨-, htrim⟩ | ⟨-, heq⟩
  · exact .inl htrim
  · exact .inr heq

/-- A number against an order, of which the top digit is the eighth. -/
lemma compares_order {field : NonNativeField} (hspec : field.OrderSpec) {x : BigUint}
    (hx : x.Formed) : BigUint.Compares x (Device.orders field.typeMap) := by
  have horder := hspec.trimmed
  rcases hx with htrim | rfl
  · exact (htrim.canonical (z := 0) fun _ => rfl).compares (horder.canonical fun _ => rfl)
  · -- a zero of one digit is shorter
    have hlt : BigUint.zero.lt (Device.orders field.typeMap) = true := by
      rw [BigUint.lt, hspec.length]
      rfl
    have heq : BigUint.zero.eq (Device.orders field.typeMap) = false := by
      rw [BigUint.eq, hspec.length]
      rfl
    have hpos := hspec.prime.pos
    constructor
    · rw [hlt, BigUint.value_zero, hspec.value, decide_eq_true hpos]
    · rw [heq, BigUint.value_zero, hspec.value, decide_eq_false hpos.ne]
    · rw [BigUint.le, hlt, BigUint.value_zero, decide_eq_true (Nat.zero_le _), Bool.true_or]
    · rw [BigUint.gt, BigUint.le, hlt, BigUint.value_zero, decide_eq_false (Nat.not_lt_zero _),
        Bool.true_or, Bool.not_true]
    · rw [BigUint.ge, hlt, BigUint.value_zero, hspec.value, decide_eq_false (by omega),
        Bool.not_true]

/-! ### Operands -/

section Operands

variable {field : NonNativeField} {a b : List GoldilocksField}

lemma host_operand (hfield : field.Supported) (ha : Host.getLimbs a < 2 ^ 256) :
    Host.operand field a = some (Host.getLimbs a % field.order) := by
  obtain ⟨hspec, hhalf⟩ := hfield.spec
  have hlt := hspec.lt
  have hsub (h : field.order ≤ Host.getLimbs a) (hhalf : 2 ^ 256 ≤ 2 * field.order) :
      Host.getLimbs a % field.order = Host.getLimbs a - field.order := by
    rw [Nat.mod_eq_sub_mod h, Nat.mod_eq_of_lt (by omega)]
  cases field with
  | goldilocksField => exact absurd hfield (by decide)
  | ed25519Scalar => exact absurd hfield (by decide)
  | ed25519Base =>
    simp only [Host.operand, NonNativeField.fromNoncanonicalBigUint,
      NonNativeField.toCanonicalBigUint, Nat.mod_eq_of_lt ha, Option.bind_eq_bind,
      Option.bind_some, Option.pure_def]
  | secp256K1Base =>
    obtain ⟨-, -, hhalf⟩ := hhalf.resolve_left fun h => absurd h.1 (by decide)
    simp only [Host.operand, NonNativeField.fromNoncanonicalBigUint,
      NonNativeField.toCanonicalBigUint, if_pos ha, Option.bind_eq_bind, Option.bind_some,
      Option.pure_def]
    split_ifs with hle
    · rw [hsub hle hhalf]
    · rw [Nat.mod_eq_of_lt (not_le.mp hle)]
  | secp256K1Scalar =>
    obtain ⟨-, -, hhalf⟩ := hhalf.resolve_left fun h => absurd h.1 (by decide)
    simp only [Host.operand, NonNativeField.fromNoncanonicalBigUint,
      NonNativeField.toCanonicalBigUint, if_pos ha, Option.bind_eq_bind, Option.bind_some,
      Option.pure_def]
    split_ifs with hle
    · rw [hsub hle hhalf]
    · rw [Nat.mod_eq_of_lt (not_le.mp hle)]

lemma exists_readOperands (hfield : field.Supported) (hla : a.length = 8) (hlb : b.length = 8)
    (ha : Host.getLimbs a < 2 ^ 256) (hb : Host.getLimbs b < 2 ^ 256) :
    ∃ x y, Device.readOperands field.typeMap 8 8 (b ++ a).reverse = some (x, y) ∧
      Reduced field (Host.getLimbs a) x ∧ Reduced field (Host.getLimbs b) y := by
  have htake : (b ++ a).reverse.take 8 = a.reverse := by
    rw [List.reverse_append, List.take_left' (by rw [List.length_reverse, hla])]
  have hdrop : ((b ++ a).reverse.drop 8).take 8 = b.reverse := by
    rw [List.reverse_append, List.drop_left' (by rw [List.length_reverse, hla]), List.take_of_length_le
      (by rw [List.length_reverse, hlb])]
  have hread {l : List GoldilocksField} (hl : l.length = 8) (hlt : Host.getLimbs l < 2 ^ 256) :
      ∃ r s, Device.readBigUint l.reverse = some r ∧
        Device.reduceOperand field.typeMap r = some s ∧ Reduced field (Host.getLimbs l) s := by
    have hne : l.reverse ≠ [] := by
      rw [← List.length_pos_iff_ne_nil, List.length_reverse, hl]
      norm_num
    obtain ⟨r, hr, hrv, hrt, -⟩ := readBigUint_spec hne
      (by rw [List.length_reverse, hl]; norm_num)
    rw [← getLimbs_eq] at hrv
    obtain ⟨s, hs, hreduced⟩ := reduceOperand_spec hfield hrt (hrv.trans_lt hlt)
    exact ⟨r, s, hr, hs, hrv ▸ hreduced⟩
  obtain ⟨r, x, hr, hx, hxr⟩ := hread hla ha
  obtain ⟨s, y, hs, hy, hyr⟩ := hread hlb hb
  refine ⟨x, y, ?_, hxr, hyr⟩
  rw [Device.readOperands, htake, hdrop]
  simp only [hr, hs, hx, hy, Option.bind_eq_bind, Option.bind_some, Option.pure_def]

end Operands

/-- The two forms of zero are the only numbers that the comparison tells apart wrongly. -/
def BorrowsFromZero (field : NonNativeField) (a b : ℕ) : Prop :=
  Doubled field b ∧ ¬ Doubled field a ∧ a % field.order = 0

lemma zero_lt_eq {y : BigUint} (hy : y.Trimmed) : BigUint.zero.lt y = decide (0 < y.value) := by
  have hzero := hy.value_eq_zero
  apply Bool.eq_iff_iff.mpr
  rw [decide_eq_true_iff]
  match hlength : y.length with
  | 0 =>
    rw [BigUint.lt, hlength, hzero.mpr hlength]
    exact iff_of_false Bool.false_ne_true (lt_irrefl 0)
  | 1 =>
    have hone : BigUint.zero.length = y.length := hlength.symm
    have hvalue : evalSum BigUint.zero.digit BigUint.zero.length (2 ^ 32) = 0 := by decide
    rw [BigUint.lt, if_neg (not_not.mpr hone), BigUint.ltLoop_iff, hvalue, hone]
    rfl
  | n + 2 =>
    have hne : BigUint.zero.length ≠ y.length := by
      rw [hlength]
      exact fun h => Nat.succ_ne_zero n (Nat.succ.inj h).symm
    rw [BigUint.lt, if_pos hne, hlength]
    refine iff_of_true (decide_eq_true (Nat.succ_lt_succ (Nat.succ_pos n))) ?_
    exact Nat.pos_of_ne_zero fun h => by rw [hzero.mp h] at hlength; cases hlength

lemma lt_zero_eq {x : BigUint} (hx : x.Trimmed) : x.lt BigUint.zero = decide (x.value = 0) := by
  have hzero := hx.value_eq_zero
  apply Bool.eq_iff_iff.mpr
  rw [decide_eq_true_iff, hzero]
  match hlength : x.length with
  | 0 =>
    rw [BigUint.lt, hlength]
    exact iff_of_true rfl rfl
  | 1 =>
    have hone : x.length = BigUint.zero.length := hlength
    have hvalue : evalSum BigUint.zero.digit 1 (2 ^ 32) = 0 := by decide
    rw [BigUint.lt, if_neg (not_not.mpr hone), BigUint.ltLoop_iff, hlength, hvalue]
    exact iff_of_false (Nat.not_lt_zero _) one_ne_zero
  | n + 2 =>
    have hne : x.length ≠ BigUint.zero.length := by
      rw [hlength]
      exact fun h => Nat.succ_ne_zero n (Nat.succ.inj h)
    rw [BigUint.lt, if_pos hne, hlength]
    refine iff_of_false ?_ (Nat.succ_ne_zero _)
    rw [decide_eq_true_iff]
    exact fun h => absurd (Nat.succ_lt_succ_iff.mp h) (Nat.not_lt_zero _)

/-- The comparison of two reduced operands. -/
lemma Reduced.lt_eq {field : NonNativeField} {a b : ℕ} {x y : BigUint} (hx : Reduced field a x)
    (hy : Reduced field b y) :
    BorrowsFromZero field a b ∧ x.lt y = true ∧ x.value = 0 ∧ y = BigUint.zero ∨
      ¬ BorrowsFromZero field a b ∧ x.lt y = decide (x.value < y.value) := by
  rcases hy.form with ⟨hyd, hyt⟩ | ⟨hyd, rfl⟩
  · refine .inr ⟨fun h => hyd h.1, ?_⟩
    rcases hx.form with ⟨-, hxt⟩ | ⟨-, rfl⟩
    · exact ((hxt.canonical (z := 0) fun _ => rfl).compares (hyt.canonical fun _ => rfl)).lt
    · rw [BigUint.value_zero]
      exact zero_lt_eq hyt
  · rcases hx.form with ⟨hxd, hxt⟩ | ⟨hxd, rfl⟩
    · rw [lt_zero_eq hxt, BorrowsFromZero, ← hx.value, BigUint.value_zero]
      by_cases hzero : x.value = 0
      · exact .inl ⟨⟨hyd, hxd, hzero⟩, decide_eq_true hzero, hzero, rfl⟩
      · refine .inr ⟨fun h => hzero h.2.2, ?_⟩
        rw [decide_eq_false hzero, decide_eq_false (Nat.not_lt_zero _)]
    · exact .inr ⟨fun h => h.2.1 hxd, by decide⟩

/-! ### Operations -/

section Operations

variable {field : NonNativeField} {a b : List GoldilocksField}

lemma writeDigits_eq_of_value {x : BigUint} (hx : x.Clean) {v : ℕ} (hv : x.value = v) (n : ℕ) :
    x.writeDigits n = u32Limbs n v := by
  rw [hx.writeDigits_eq, hv]

/-- The sum of two operands. -/
lemma exists_add {x y : BigUint} (hx : x.Formed) (hy : y.Formed) (hxl : x.value < 2 ^ 256)
    (hyl : y.value < 2 ^ 256) :
    ∃ r, x.add y = some r ∧ r.value = x.value + y.value ∧ r.Formed := by
  have hpow : 2 ^ 256 = (2 ^ 32) ^ (7 + 1) := by norm_num
  have hxlen := hx.length_le (hxl.trans_eq hpow)
  have hylen := hy.length_le (hyl.trans_eq hpow)
  obtain ⟨r, hr, hrv, hform⟩ := BigUint.add_spec hx.clean hy.clean
    (.inr (.inr (by rw [maxDigits]; omega)))
  refine ⟨r, hr, hrv, ?_⟩
  rcases hform with ⟨-, rfl⟩ | ⟨-, rfl⟩ | ⟨-, -, htrim⟩
  · exact hy
  · exact hx
  · exact .inl htrim

/-- The difference of two operands. -/
lemma exists_sub {x y : BigUint} (hx : x.Formed) (hy : y.Clean) (hle : y.value ≤ x.value) :
    ∃ r, x.sub y = some r ∧ r.value = x.value - y.value ∧ r.Formed := by
  obtain ⟨r, hr, hrv, hform⟩ := BigUint.sub_spec hy hle
  refine ⟨r, hr, hrv, ?_⟩
  rcases hform with ⟨-, rfl⟩ | ⟨-, htrim⟩
  · exact hx
  · exact .inl htrim

/-- The product of two operands. -/
lemma exists_mul {x y : BigUint} (hx : x.Formed) (hy : y.Formed) (hxl : x.value < 2 ^ 256)
    (hyl : y.value < 2 ^ 256) :
    ∃ r, x.mul y = some r ∧ r.value = x.value * y.value ∧ r.Formed := by
  have hpow : 2 ^ 256 = (2 ^ 32) ^ (7 + 1) := by norm_num
  have hxlen := hx.length_le (hxl.trans_eq hpow)
  have hylen := hy.length_le (hyl.trans_eq hpow)
  obtain ⟨r, hr, hrv, hform⟩ := BigUint.mul_spec (x := x) hy.clean
    (.inr (.inr (.inr (.inr (by rw [maxDigits]; omega)))))
  refine ⟨r, hr, hrv, ?_⟩
  rcases hform with ⟨-, rfl⟩ | ⟨-, rfl | rfl | htrim⟩
  · exact .inr rfl
  · exact hx
  · exact hy
  · exact .inl htrim

/-- The division of a number by an order. -/
lemma exists_divOrder (hspec : field.OrderSpec) {x : BigUint} (hx : x.Formed)
    (hxl : x.value < (2 ^ 32) ^ 16) :
    (∃ q r, BigUint.DivRemResult x (Device.orders field.typeMap) q r) ∧
      (BigUint.DivisionExact x (Device.orders field.typeMap) ↔
        BigUint.DivisionExact (BigUint.ofNat x.value) (Device.orders field.typeMap)) := by
  have hlen := hx.length_le (n := 15) hxl
  have hlength := hspec.length
  have hcmp := (compares_order hspec hx).lt
  refine ⟨BigUint.exists_divRemResult hx.clean hspec.trimmed (by rw [maxDigits]; omega)
    (by omega) (by rw [hcmp, decide_eq_true_iff]) (.inr (by omega)), ?_⟩
  rcases hx with htrim | rfl
  · rw [← htrim.eq_ofNat]
  · have hzero : BigUint.DivisionExact (BigUint.ofNat 0) (Device.orders field.typeMap) := by
      have hform : (BigUint.ofNat 0).Formed := .inl (BigUint.trimmed_ofNat (by norm_num))
      have hlt := (compares_order hspec hform).lt
      rw [BigUint.value_ofNat (by norm_num), hspec.value, decide_eq_true hspec.prime.pos] at hlt
      rw [BigUint.DivisionExact, if_pos hlt, BigUint.value_ofNat (by norm_num), hspec.value]
      exact hspec.prime.pos
    rw [BigUint.value_zero]
    refine iff_of_true ?_ hzero
    rw [BigUint.value_zero, hspec.value, decide_eq_true hspec.prime.pos] at hcmp
    rw [BigUint.DivisionExact, if_pos hcmp, BigUint.value_zero, hspec.value]
    exact hspec.prime.pos

variable (hfield : field.Supported) (hla : a.length = 8) (hlb : b.length = 8)
  (ha : Host.getLimbs a < 2 ^ 256) (hb : Host.getLimbs b < 2 ^ 256)
include hfield hla hlb ha hb

lemma addition_agrees : Agree
    (Device.nonNativeAddition [field.typeMap, a.length, b.length] (b ++ a).reverse)
    (Host.nonNativeAddition field a b) := by
  obtain ⟨hspec, -⟩ := hfield.spec
  obtain ⟨x, y, hread, hx, hy⟩ := exists_readOperands hfield hla hlb ha hb
  have hxlt : x.value < field.order := hx.value.trans_lt (Nat.mod_lt _ hspec.prime.pos)
  have hylt : y.value < field.order := hy.value.trans_lt (Nat.mod_lt _ hspec.prime.pos)
  have horder := hspec.lt
  obtain ⟨s, hs, hsv, hsform⟩ := exists_add hx.formed hy.formed (hxlt.trans horder)
    (hylt.trans horder)
  have hgt := (compares_order hspec hsform).gt
  rw [hspec.value, hsv] at hgt
  have hpow : (2 : ℕ) ^ 256 = (2 ^ 32) ^ 8 := by norm_num
  rw [hpow] at horder
  simp only [Device.nonNativeAddition, Host.nonNativeAddition, hla, hlb, List.getD_cons_zero,
    List.getD_cons_succ, hread, hs, hgt, host_operand hfield ha, host_operand hfield hb,
    ← hx.value, ← hy.value, hspec.numLimbs, setBigUintTarget, Option.bind_eq_bind,
    Option.bind_some, Option.pure_def]
  by_cases hover : field.order < x.value + y.value
  · obtain ⟨r, hr, hrv, hrform⟩ := exists_sub hsform hspec.trimmed.clean
      (by rw [hspec.value, hsv]; exact hover.le)
    rw [hspec.value, hsv] at hrv
    have hlt : x.value + y.value - field.order < (2 ^ 32) ^ 8 := by omega
    simp only [hover, decide_true, if_true, hr, hlt, writeDigits_eq_of_value hrform.clean hrv,
      Option.bind_some, agree_some_iff]
  · have hlt : x.value + y.value < (2 ^ 32) ^ 8 := by omega
    simp only [hover, decide_false, if_false, Bool.false_eq_true, hlt, if_true,
      writeDigits_eq_of_value hsform.clean hsv, Option.bind_some, agree_some_iff]

lemma subtraction_agrees_iff : Agree
      (Device.nonNativeSubtraction [field.typeMap, a.length, b.length] (b ++ a).reverse)
      (Host.nonNativeSubtraction field a b) ↔
    ¬ BorrowsFromZero field (Host.getLimbs a) (Host.getLimbs b) := by
  obtain ⟨hspec, -⟩ := hfield.spec
  obtain ⟨x, y, hread, hx, hy⟩ := exists_readOperands hfield hla hlb ha hb
  have hxlt : x.value < field.order := hx.value.trans_lt (Nat.mod_lt _ hspec.prime.pos)
  have hylt : y.value < field.order := hy.value.trans_lt (Nat.mod_lt _ hspec.prime.pos)
  have horder := hspec.lt
  obtain ⟨s, hs, hsv, hsform⟩ := exists_add (y := Device.orders field.typeMap) hx.formed
    (.inl hspec.trimmed) (hxlt.trans horder) (hspec.value.trans_lt horder)
  rw [hspec.value] at hsv
  have hpow : (2 : ℕ) ^ 256 = (2 ^ 32) ^ 8 := by norm_num
  rw [hpow] at horder
  simp only [Device.nonNativeSubtraction, Host.nonNativeSubtraction, hla, hlb,
    List.getD_cons_zero, List.getD_cons_succ, hread, host_operand hfield ha,
    host_operand hfield hb, ← hx.value, ← hy.value, hspec.numLimbs, setBigUintTarget,
    Option.bind_eq_bind, Option.bind_some, Option.pure_def]
  rcases hx.lt_eq hy with ⟨hbad, hlt, hzero, rfl⟩ | ⟨hgood, hlt⟩
  · -- the kernel borrows, and writes the order
    refine iff_of_false ?_ (not_not.mpr hbad)
    have hsub : s.sub BigUint.zero = some s := if_pos rfl
    rw [BigUint.value_zero, hzero]
    simp only [hlt, if_true, hs, hsub, Option.bind_some, le_refl, Nat.sub_zero,
      show 0 < (2 ^ 32) ^ 8 by norm_num, agree_some_iff]
    intro heq
    have hflag := (writeDigits_append_iff.mp heq).2
    simp at hflag
  · refine iff_of_true ?_ hgood
    rw [hlt]
    by_cases hless : x.value < y.value
    · obtain ⟨r, hr, hrv, hrform⟩ := exists_sub (y := y) hsform hy.formed.clean (by omega)
      rw [hsv, add_comm] at hrv
      have hfit : field.order + x.value - y.value < (2 ^ 32) ^ 8 := by omega
      simp only [hless, decide_true, if_true, hs, hr, not_le.mpr hless, if_false, hfit,
        writeDigits_eq_of_value hrform.clean hrv, Option.bind_some, agree_some_iff]
    · obtain ⟨r, hr, hrv, hrform⟩ := exists_sub (y := y) hx.formed hy.formed.clean
        (not_lt.mp hless)
      have hfit : x.value - y.value < (2 ^ 32) ^ 8 := by omega
      simp only [hless, decide_false, Bool.false_eq_true, if_false, hr, not_lt.mp hless,
        if_true, hfit, writeDigits_eq_of_value hrform.clean hrv, Option.bind_some,
        agree_some_iff]

lemma multiplication_agrees_iff : Agree
      (Device.nonNativeMultiplication [field.typeMap, a.length, 8] (b ++ a).reverse)
      (Host.nonNativeMultiplication field a b) ↔
    BigUint.DivisionExact (BigUint.ofNat (Host.getLimbs a % field.order *
      (Host.getLimbs b % field.order))) (Device.orders field.typeMap) := by
  obtain ⟨hspec, -⟩ := hfield.spec
  obtain ⟨x, y, hread, hx, hy⟩ := exists_readOperands hfield hla hlb ha hb
  have hxlt : x.value < field.order := hx.value.trans_lt (Nat.mod_lt _ hspec.prime.pos)
  have hylt : y.value < field.order := hy.value.trans_lt (Nat.mod_lt _ hspec.prime.pos)
  have horder := hspec.lt
  obtain ⟨p, hp, hpv, hpform⟩ := exists_mul hx.formed hy.formed (hxlt.trans horder)
    (hylt.trans horder)
  have hpow : (2 : ℕ) ^ 256 = (2 ^ 32) ^ 8 := by norm_num
  rw [hpow] at horder
  have hplt : p.value < field.order * field.order := by
    rw [hpv]
    exact Nat.mul_lt_mul'' hxlt hylt
  have hfit : p.value < (2 ^ 32) ^ 16 :=
    hplt.trans ((Nat.mul_lt_mul'' horder horder).trans_eq (pow_add _ 8 8).symm)
  obtain ⟨⟨q, r, hdiv⟩, hexact⟩ := exists_divOrder hspec hpform hfit
  have hq : p.value / field.order < (2 ^ 32) ^ 8 := (Nat.div_lt_of_lt_mul hplt).trans horder
  have hr : p.value % field.order < (2 ^ 32) ^ 8 := (Nat.mod_lt _ hspec.prime.pos).trans horder
  have hlimbs := hdiv.limbs_eq_iff (hspec.value.symm ▸ hq) (hspec.value.symm ▸ hr)
  rw [hspec.value] at hlimbs
  simp only [Device.nonNativeMultiplication, Host.nonNativeMultiplication, hla, hlb,
    List.getD_cons_zero, List.getD_cons_succ, hread, hp, hdiv.divRem, host_operand hfield ha,
    host_operand hfield hb, ← hx.value, ← hy.value, hspec.numLimbs, setBigUintTarget, ← hpv,
    if_pos hq, if_pos hr, Nat.add_sub_cancel, Option.bind_eq_bind, Option.bind_some,
    Option.pure_def, agree_some_iff]
  rw [writeDigits_append_iff, and_comm, hlimbs, hexact]

omit hb hlb in
/-- The kernel never writes an inverse, and the host always does. -/
lemma inverse_fails (hne : Host.getLimbs a % field.order ≠ 0) (fuel : ℕ) :
    Device.nonNativeInverse [field.typeMap] a.reverse fuel = none ∧
      (Host.nonNativeInverse field a).isSome := by
  obtain ⟨hspec, -⟩ := hfield.spec
  have horder := hspec.lt
  have hpow : (2 : ℕ) ^ 256 = (2 ^ 32) ^ 8 := by norm_num
  rw [hpow] at horder
  constructor
  · have hnil : a.reverse ≠ [] := by
      rw [← List.length_pos_iff_ne_nil, List.length_reverse, hla]
      norm_num
    obtain ⟨r, hr, hrv, hrt, -⟩ := readBigUint_spec hnil
      (by rw [List.length_reverse, hla]; norm_num)
    rw [← getLimbs_eq] at hrv
    obtain ⟨x, hx, hreduced⟩ := reduceOperand_spec hfield hrt (hrv.trans_lt ha)
    rw [hrv] at hreduced
    have hxlt : x.value < field.order := hreduced.value.trans_lt (Nat.mod_lt _ hspec.prime.pos)
    have hpos : 0 < x.value := Nat.pos_of_ne_zero (hreduced.value.trans_ne hne)
    have htrim : x.Trimmed := by
      rcases hreduced.form with ⟨-, htrim⟩ | ⟨-, rfl⟩
      · exact htrim
      · rw [BigUint.value_zero] at hpos
        cases hpos
    have hcoprime : x.value.Coprime field.order :=
      (hspec.prime.coprime_iff_not_dvd.mpr (Nat.not_dvd_of_pos_of_lt hpos hxlt)).symm
    have hnone : x.inverseEea fuel (Device.orders field.typeMap) = none := by
      apply BigUint.Coprimes.inverseEea_eq_none
      refine ⟨htrim, hspec.trimmed, hpos, ?_, ?_, hxlt.trans horder, ?_⟩ <;> rw [hspec.value]
      · exact hspec.prime.pos
      · exact hcoprime
      · exact horder
    have htake : a.reverse.take 8 = a.reverse :=
      List.take_of_length_le (by rw [List.length_reverse, hla])
    simp only [Device.nonNativeInverse, List.getD_cons_zero, htake, hr, hx, hnone,
      Option.bind_eq_bind, Option.bind_some, Option.bind_none]
  · generalize hinv : (Host.getLimbs a % field.order) ^ (field.order - 2) % field.order = inv
    have hinvlt : inv < field.order := hinv ▸ Nat.mod_lt _ hspec.prime.pos
    have hmod := Nat.mod_lt (Host.getLimbs a) hspec.prime.pos
    have hdiv : Host.getLimbs a % field.order * inv / field.order < (2 ^ 32) ^ 8 :=
      (Nat.div_lt_of_lt_mul (Nat.mul_lt_mul'' hmod hinvlt)).trans horder
    simp only [Host.nonNativeInverse, host_operand hfield ha, NonNativeField.inverse, if_neg hne,
      hinv, hla, setBigUintTarget, if_pos hdiv, if_pos (hinvlt.trans horder), Option.bind_eq_bind,
      Option.bind_some, Option.pure_def, Option.isSome_some]

end Operations

/-! ### Division -/

/-- The operands that the host divides. -/
lemma host_divRem {a b : List GoldilocksField} (hhost : (Host.biguintDivRem a b).isSome) :
    Host.getLimbs b ≠ 0 ∧ a.length = 16 ∧ b.length = 8 ∧
      Host.getLimbs a / Host.getLimbs b < (2 ^ 32) ^ 9 ∧
      Host.getLimbs a % Host.getLimbs b < (2 ^ 32) ^ 8 ∧
      Host.biguintDivRem a b = some (u32Limbs 9 (Host.getLimbs a / Host.getLimbs b) ++
        u32Limbs 8 (Host.getLimbs a % Host.getLimbs b)) := by
  rw [Host.biguintDivRem] at hhost ⊢
  by_cases hbad : Host.getLimbs b = 0 ∨ a.length ≠ 16 ∨ b.length ≠ 8
  · rw [if_pos hbad] at hhost
    cases hhost
  rw [if_neg hbad] at hhost ⊢
  simp only [not_or, not_not] at hbad
  obtain ⟨hb0, hla, hlb⟩ := hbad
  simp only [setBigUintTarget] at hhost ⊢
  by_cases hq : Host.getLimbs a / Host.getLimbs b < (2 ^ 32) ^ 9
  · by_cases hr : Host.getLimbs a % Host.getLimbs b < (2 ^ 32) ^ 8
    · rw [if_pos hq, if_pos hr]
      exact ⟨hb0, hla, hlb, hq, hr, rfl⟩
    · rw [if_pos hq, if_neg hr] at hhost
      cases hhost
  · rw [if_neg hq] at hhost
    cases hhost

/-- The division kernel writes the quotient and the remainder exactly where the division over the
digits gives them. -/
lemma divRem_agrees_iff {a b : List GoldilocksField} (hhost : (Host.biguintDivRem a b).isSome) :
    Agree (Device.biguintDivRem (b ++ a).reverse) (Host.biguintDivRem a b) ↔
      BigUint.DivisionExact (BigUint.ofNat (Host.getLimbs a))
        (BigUint.ofNat (Host.getLimbs b)) := by
  obtain ⟨hb0, hla, hlb, hq, hr, heq⟩ := host_divRem hhost
  have hread {l : List GoldilocksField} (hpos : 0 < l.length) (hle : l.length ≤ 16) :
      ∃ x, Device.readBigUint l.reverse = some x ∧ x.value = Host.getLimbs l ∧ x.Trimmed ∧
        x.length ≤ l.length + 1 := by
    rw [getLimbs_eq, ← List.length_reverse]
    exact readBigUint_spec (by rwa [← List.length_pos_iff_ne_nil, List.length_reverse])
      (by rwa [List.length_reverse])
  obtain ⟨x, hx, hxv, hxt, hxl⟩ := hread (l := a) (by omega) (by omega)
  obtain ⟨y, hy, hyv, hyt, -⟩ := hread (l := b) (by omega) (by omega)
  have hxl : x.length < maxDigits := by
    rw [maxDigits]
    omega
  have htake : (b ++ a).reverse.take 16 = a.reverse := by
    rw [List.reverse_append, List.take_left' (by rw [List.length_reverse, hla])]
  have hdrop : ((b ++ a).reverse.drop 16).take 8 = b.reverse := by
    rw [List.reverse_append, List.drop_left' (by rw [List.length_reverse, hla]),
      List.take_of_length_le (by rw [List.length_reverse, hlb])]
  have hyl : 1 ≤ y.length := hyt.one_le_length (Nat.pos_of_ne_zero (hyv.trans_ne hb0))
  rw [heq, ← hxv, ← hyv, ← hxt.eq_ofNat, ← hyt.eq_ofNat]
  have hcmp := (hxt.canonical (z := 0) fun _ => rfl).lt_iff (hyt.canonical (z := 0) fun _ => rfl)
  simp only [Device.biguintDivRem, htake, hdrop, hx, hy, Option.bind_eq_bind, Option.bind_some]
  by_cases hdigits : x.lt y = true ∨ 2 ≤ y.length
  · obtain ⟨q, r, hdiv⟩ := BigUint.exists_divRemResult hxt.clean hyt hxl hyl hcmp hdigits
    rw [← hxv, ← hyv] at hq hr
    simp only [hdiv.divRem, Option.bind_some, Option.pure_def, agree_some_iff]
    rw [writeDigits_append_iff, hdiv.limbs_eq_iff hq hr]
  · rw [not_or] at hdigits
    have hnone := (BigUint.div_of_length_one hxt.clean hyt hxl (by omega)
      (Bool.eq_false_iff.mpr hdigits.1)).2
    rw [hnone, BigUint.DivisionExact, if_neg hdigits.1]
    exact iff_of_false not_agree_none fun h => hdigits.2 h.1

/-- When the kernels for numbers in limbs write what the generators of the host write: addition
always does, subtraction unless it takes a zero of one digit from zero, multiplication and division
where the division of the digits is exact, and the inverse never. -/
theorem limbKernels_agree_iff (field : NonNativeField) (hfield : field.Supported)
    (a b : List GoldilocksField) (hla : a.length = 8) (hlb : b.length = 8)
    (ha : Host.getLimbs a < 2 ^ 256) (hb : Host.getLimbs b < 2 ^ 256) :
    (Agree (Device.nonNativeAddition [field.typeMap, a.length, b.length] (b ++ a).reverse)
        (Host.nonNativeAddition field a b) ∧
      (Agree (Device.nonNativeSubtraction [field.typeMap, a.length, b.length] (b ++ a).reverse)
          (Host.nonNativeSubtraction field a b) ↔
        ¬ BorrowsFromZero field (Host.getLimbs a) (Host.getLimbs b)) ∧
      (Agree (Device.nonNativeMultiplication [field.typeMap, a.length, 8] (b ++ a).reverse)
          (Host.nonNativeMultiplication field a b) ↔
        BigUint.DivisionExact (BigUint.ofNat (Host.getLimbs a % field.order *
          (Host.getLimbs b % field.order))) (Device.orders field.typeMap)) ∧
      (Host.getLimbs a % field.order ≠ 0 → (Host.nonNativeInverse field a).isSome ∧
        ∀ fuel, ¬ Agree (Device.nonNativeInverse [field.typeMap] a.reverse fuel)
          (Host.nonNativeInverse field a))) ∧
    ∀ dividend divisor : List GoldilocksField, (Host.biguintDivRem dividend divisor).isSome →
      (Agree (Device.biguintDivRem (divisor ++ dividend).reverse)
          (Host.biguintDivRem dividend divisor) ↔
        BigUint.DivisionExact (BigUint.ofNat (Host.getLimbs dividend))
          (BigUint.ofNat (Host.getLimbs divisor))) := by
  refine ⟨⟨?_, ?_, ?_, fun hne => ⟨?_, fun fuel => ?_⟩⟩, fun _ _ hhost => divRem_agrees_iff hhost⟩
  · exact addition_agrees hfield hla hlb ha hb
  · exact subtraction_agrees_iff hfield hla hlb ha hb
  · exact multiplication_agrees_iff hfield hla hlb ha hb
  · exact (inverse_fails hfield hla ha hne 0).2
  · rw [(inverse_fails hfield hla ha hne fuel).1]
    exact not_agree_none

theorem limbKernels_agree_five_seven :
    Agree (Device.nonNativeAddition [3, 8, 8] (u32Limbs 8 7 ++ u32Limbs 8 5).reverse)
      (Host.nonNativeAddition .secp256K1Base (u32Limbs 8 5) (u32Limbs 8 7)) :=
  (limbKernels_agree_iff .secp256K1Base (by decide) (u32Limbs 8 5) (u32Limbs 8 7)
    rfl rfl ((getLimbs_u32Limbs (by norm_num)).trans_lt (by norm_num))
    ((getLimbs_u32Limbs (by norm_num)).trans_lt (by norm_num))).1.1

/-- Twice minus one in the base field of Secp256k1: the division by the order loses a carry. -/
theorem nonNativeMultiplication_disagrees :
    ¬ Agree
      (Device.nonNativeMultiplication [3, 8, 8]
        (u32Limbs 8 (NonNativeField.secp256K1Base.order - 1) ++ u32Limbs 8 2).reverse)
      (Host.nonNativeMultiplication .secp256K1Base (u32Limbs 8 2)
        (u32Limbs 8 (NonNativeField.secp256K1Base.order - 1))) := by
  have hlt : NonNativeField.secp256K1Base.order - 1 < (2 ^ 32) ^ 8 := by decide
  have h2 : Host.getLimbs (u32Limbs 8 2) = 2 := getLimbs_u32Limbs (by norm_num)
  have hp := getLimbs_u32Limbs hlt
  have hfield : NonNativeField.secp256K1Base.Supported := by decide
  have hiff := multiplication_agrees_iff hfield (length_u32Limbs 8 2) (length_u32Limbs 8 _)
    (h2.trans_lt (by norm_num)) (hp.trans_lt (hlt.trans_eq (by norm_num)))
  rw [h2, hp, length_u32Limbs] at hiff
  intro hagree
  exact absurd (hiff.mp hagree) (by decide)

end MegaZK
