import MegaZK.NonNative.Kernels

/-! # Kernels and generators for numbers in limbs

Where the kernels write what the generators of the host write. -/

namespace MegaZK

open Horner Radix

variable {x y : BigUint} {n : ℕ}

/-! ### Reading the limbs -/

/-- The number in limbs, the highest first. -/
def limbValue (limbs : List GoldilocksField) : ℕ :=
  limbs.foldl (fun v limb => v * 2 ^ 32 + limb.val) 0

lemma getLimbs_eq (limbs : List GoldilocksField) :
    Host.getLimbs limbs = limbValue limbs.reverse := by
  have hmap : (List.range limbs.length).map (fun i => limbs.getD i 0) = limbs := by
    apply List.ext_getElem
    · simp
    · intro i hi hi'
      rw [List.getElem_map, List.getElem_range, List.getD_eq_getElem]
  rw [Host.getLimbs, getBigUintTarget, limbValue]
  conv_rhs => rw [← hmap, ← List.map_reverse, List.foldl_map]
  simp only [Nat.shiftLeft_eq]

/-- An operand after `n` limbs. -/
structure ReadInv (x : BigUint) (n : ℕ) : Prop where
  clean : x.Clean
  length_le : x.length ≤ n + 1
  value_le : x.value + 2 ^ 32 ≤ (2 ^ 32) ^ (n + 1)

lemma val_le (limb : GoldilocksField) : limb.val + 2 ^ 32 ≤ 2 ^ 64 := by
  have hlt : limb.val < goldilocksOrder := ZMod.val_lt limb
  have horder : goldilocksOrder = 2 ^ 64 - 2 ^ 32 + 1 := rfl
  omega

/-- One pass of the loop. -/
lemma ReadInv.step (h : ReadInv x n) (hn : n < 16) (limb : GoldilocksField) :
    ∃ r, (do (← x.shl 32).add (← BigUint.ofU64 limb.val)) = some r ∧
      r.value = x.value * 2 ^ 32 + limb.val ∧ r.Trimmed ∧ ReadInv r (n + 1) := by
  have hlimb := val_le limb
  have hlength := h.length_le
  have hfit : 32 = 0 ∨ x.length + 32 / 32 < maxDigits := .inr (by rw [maxDigits]; omega)
  obtain ⟨s, hs, hsv, hsform⟩ := BigUint.shl_spec hfit
  have hst : s.Trimmed := (hsform.resolve_left fun h => absurd h.1 (by decide)).2
  obtain ⟨t, ht, htv, htt⟩ := BigUint.ofU64_spec limb.val
  rw [Nat.mod_eq_of_lt (by omega)] at htv
  have hpow : (2 ^ 32) ^ (n + 2) = (2 ^ 32) ^ (n + 1) * 2 ^ 32 := pow_succ _ _
  have hvalue := h.value_le
  have hsl : s.length ≤ n + 2 := hst.length_le (by rw [hsv]; omega)
  have htl : t.length ≤ 2 := htt.length_le (by omega)
  obtain ⟨r, hr, hrv, hform⟩ := BigUint.add_spec hst.clean htt.clean
    (.inr (.inr (by rw [maxDigits]; omega)))
  rw [hsv, htv] at hrv
  have hrt : r.Trimmed := by
    rcases hform with ⟨-, rfl⟩ | ⟨-, rfl⟩ | ⟨-, -, htrim⟩
    · exact htt
    · exact hst
    · exact htrim
  have hle : r.value + 2 ^ 32 ≤ (2 ^ 32) ^ (n + 2) := by omega
  refine ⟨r, ?_, hrv, hrt, hrt.clean, hrt.length_le (by omega), hle⟩
  rw [hs, ht]
  exact hr

lemma readLoop_spec (limbs : List GoldilocksField) (h : ReadInv x n)
    (hn : n + limbs.length ≤ 16) :
    ∃ r, limbs.foldlM (fun a limb => do (← a.shl 32).add (← BigUint.ofU64 limb.val)) x = some r ∧
      r.value = limbs.foldl (fun v limb => v * 2 ^ 32 + limb.val) x.value ∧
      r.length ≤ n + limbs.length + 1 ∧ (limbs ≠ [] → r.Trimmed) := by
  induction limbs generalizing x n with
  | nil => exact ⟨x, rfl, rfl, h.length_le, fun hne => absurd rfl hne⟩
  | cons limb limbs ih =>
    rw [List.length_cons] at hn
    obtain ⟨r, hr, hrv, hrt, hinv⟩ := h.step (by omega) limb
    obtain ⟨r', hr', hrv', hlength, hrt'⟩ := ih hinv (by omega)
    refine ⟨r', ?_, ?_, hlength.trans_eq (by rw [List.length_cons]; omega), fun _ => ?_⟩
    · rw [List.foldlM_cons, hr]
      exact hr'
    · rw [hrv', hrv, List.foldl_cons]
    · cases limbs with
      | nil =>
        obtain rfl := Option.some.inj hr'
        exact hrt
      | cons => exact hrt' (List.cons_ne_nil _ _)

lemma readBigUint_spec {limbs : List GoldilocksField} (hne : limbs ≠ [])
    (hn : limbs.length ≤ 16) :
    ∃ r, Device.readBigUint limbs = some r ∧ r.value = limbValue limbs ∧ r.Trimmed ∧
      r.length ≤ limbs.length + 1 := by
  have hinit : ReadInv BigUint.zero 0 :=
    ⟨BigUint.canonical_zero.clean, le_rfl, by rw [BigUint.value_zero]; norm_num⟩
  obtain ⟨r, hr, hrv, hlength, hrt⟩ := readLoop_spec limbs hinit (by omega)
  rw [BigUint.value_zero] at hrv
  exact ⟨r, hr, hrv, hrt hne, hlength.trans_eq (by omega)⟩

/-! ### The orders -/

namespace NonNativeField

/-- The fields with an order in the kernels' table: types 1, 3 and 4. -/
def Supported (field : NonNativeField) : Prop := field.typeMap ∈ [1, 3, 4]

instance (field : NonNativeField) : Decidable field.Supported :=
  inferInstanceAs (Decidable (_ ∈ _))

/-- What the kernels know of the order of a field. -/
structure OrderSpec (field : NonNativeField) : Prop where
  trimmed : (Device.orders field.typeMap).Trimmed
  length : (Device.orders field.typeMap).length = 8
  value : (Device.orders field.typeMap).value = field.order
  prime : field.order.Prime
  lt : field.order < 2 ^ 256
  numLimbs : field.numNonnativeLimbs = 8

/-- Two is the only multiple that may fit: for the base field of Ed25519 it does. -/
def NearHalf (field : NonNativeField) : Prop :=
  field = ed25519Base ∧ Device.modTable field.typeMap = true ∧ 2 ^ 256 = 2 * field.order + 38 ∨
    field ≠ ed25519Base ∧ Device.modTable field.typeMap = false ∧ 2 ^ 256 ≤ 2 * field.order

variable {field : NonNativeField}

lemma trimmed_ofDigits {digits : List ℕ} (h : digits.length ≤ maxDigits)
    (htop : ∀ n, digits.length = n + 1 → digits.getD n 0 % 2 ^ 32 ≠ 0) :
    (BigUint.ofDigits digits h).Trimmed :=
  ⟨BigUint.clean_ofDigits h, htop⟩

lemma Supported.spec (h : field.Supported) : field.OrderSpec ∧ field.NearHalf := by
  have hmem : ∀ i < 3, Nat.ofDigits (2 ^ 32) (orderDigits.getD i []) ∈ orders := by
    decide
  cases field with
  | goldilocksField => exact absurd h (by decide)
  | ed25519Scalar => exact absurd h (by decide)
  | ed25519Base =>
    refine ⟨⟨trimmed_ofDigits _ ?_, rfl, by decide,
      prime_of_mem_orders _ (hmem 0 (by decide)), by decide, rfl⟩, .inl ⟨rfl, rfl, ?_⟩⟩
    · intro n hn
      obtain rfl : n = 7 := (Nat.succ.inj hn).symm
      decide
    · decide
  | secp256K1Base =>
    refine ⟨⟨trimmed_ofDigits _ ?_, rfl, by decide,
      prime_of_mem_orders _ (hmem 1 (by decide)), by decide, rfl⟩,
      .inr ⟨by decide, rfl, ?_⟩⟩
    · intro n hn
      obtain rfl : n = 7 := (Nat.succ.inj hn).symm
      decide
    · decide
  | secp256K1Scalar =>
    refine ⟨⟨trimmed_ofDigits _ ?_, rfl, by decide,
      prime_of_mem_orders _ (hmem 2 (by decide)), by decide, rfl⟩,
      .inr ⟨by decide, rfl, ?_⟩⟩
    · intro n hn
      obtain rfl : n = 7 := (Nat.succ.inj hn).symm
      decide
    · decide

end NonNativeField

/-! ### Operands -/

section Operands

variable {field : NonNativeField}

/-- An operand that a division reduces to zero, which has one digit then. -/
def Doubled (field : NonNativeField) (a : ℕ) : Prop := field = .ed25519Base ∧ a = 2 * field.order

/-- A reduced operand: the residue, of which zero has two forms. -/
structure Reduced (field : NonNativeField) (a : ℕ) (x : BigUint) : Prop where
  value : x.value = a % field.order
  form : ¬ Doubled field a ∧ x.Trimmed ∨ Doubled field a ∧ x = BigUint.zero

/-- The subtraction of the order. -/
lemma exists_subOrder (hfield : field.OrderSpec) (hx : x.Trimmed) :
    ∃ t, (if x.ge (Device.orders field.typeMap) then x.sub (Device.orders field.typeMap)
      else some x) = some t ∧ t.Trimmed ∧
      t.value = if field.order ≤ x.value then x.value - field.order else x.value := by
  have horder := hfield.trimmed
  have hcompares := (hx.canonical (z := 0) fun _ => rfl).compares
    (horder.canonical (z := 0) fun _ => rfl)
  rw [hcompares.ge, hfield.value]
  by_cases hle : field.order ≤ x.value
  · obtain ⟨t, ht, htv, htform⟩ := BigUint.sub_spec horder.clean (hfield.value.trans_le hle)
    have hpos := horder.not_isZero (by rw [hfield.length]; norm_num)
    refine ⟨t, ?_, ?_, ?_⟩
    · rw [decide_eq_true hle, if_pos rfl, ht]
    · rcases htform with ⟨hzero, -⟩ | ⟨-, htrim⟩
      · rw [hpos] at hzero
        cases hzero
      · exact htrim
    · rw [if_pos hle, htv, hfield.value]
  · refine ⟨x, ?_, hx, (if_neg hle).symm⟩
    rw [decide_eq_false hle, if_neg Bool.false_ne_true]

/-- The quotient digit of a number that is little above the order of Ed25519 is not estimated too
large. -/
lemma lossless_ed25519 {t : ℕ} (hle : NonNativeField.ed25519Base.order ≤ t)
    (hlt : t < NonNativeField.ed25519Base.order + 38) :
    BigUint.Lossless 6 1 (NonNativeField.ed25519Base.order * 2 ^ 1) (t * 2 ^ 1) := by
  have horder : NonNativeField.ed25519Base.order =
    0x7FFFFFFFFFFFFFFFFFFFFFFFFFFFFFFFFFFFFFFFFFFFFFFFFFFFFFFFFFFFFFED := by decide
  rw [horder] at hle hlt ⊢
  intro j hj
  obtain rfl : j = 0 := by omega
  rintro ⟨hestimate, -⟩
  refine absurd hestimate (not_lt.mpr ((min_le_right _ _).trans ?_))
  rw [pow_zero, Nat.div_one, Nat.mod_eq_of_lt (by omega)]
  norm_num only
  omega

/-- A shifted digit: the zero of one digit, or trimmed. -/
lemma shr_one_form {t : BigUint} (ht : t.Trimmed) {d : ℕ} (hvalue : t.value = d * 2 ^ 1)
    (hd : d < 2 ^ 31) : d = 0 ∧ t.shr 1 = BigUint.zero ∨ d ≠ 0 ∧ (t.shr 1).Trimmed := by
  have hlen : t.length ≤ 1 := ht.length_le (by omega)
  rcases Nat.le_one_iff_eq_zero_or_eq_one.mp hlen with hzero | hone
  · left
    have hval := ht.value_eq_zero.mpr hzero
    refine ⟨by omega, ?_⟩
    rw [BigUint.shr, if_neg one_ne_zero, if_pos (by omega)]
  · right
    obtain ⟨hlength, hdigit⟩ := BigUint.digit_shr_top (n := 0) one_ne_zero hone
    have hdvalue : t.value = t.digit 0 := by simp [BigUint.value, hone, evalSum_succ]
    have hne := ht.top_ne_zero 0 hone
    refine ⟨by omega, ht.clean.shr 1, ?_⟩
    intro n hn
    obtain rfl : n = 0 := by omega
    rw [hdigit]
    change t.digit 0 / 2 ≠ 0
    omega

/-- The remainder of a number that is little above the order. -/
lemma mod_ed25519 {t : BigUint} (hfield : NonNativeField.ed25519Base.OrderSpec) (ht : t.Trimmed)
    (hlt : t.value < NonNativeField.ed25519Base.order + 38) :
    ∃ r, t.mod (Device.orders 1) = some r ∧
      r.value = t.value % NonNativeField.ed25519Base.order ∧
      (t.value ≠ NonNativeField.ed25519Base.order ∧ r.Trimmed ∨
        t.value = NonNativeField.ed25519Base.order ∧ r = BigUint.zero) := by
  have horder := hfield.trimmed
  have hvalue := hfield.value
  have hlength := hfield.length
  have hbound := hfield.lt
  change (Device.orders 1).Trimmed at horder
  change (Device.orders 1).value = _ at hvalue
  change (Device.orders 1).length = 8 at hlength
  have hcmp := (ht.canonical (z := 0) fun _ => rfl).lt_iff (horder.canonical (z := 0) fun _ => rfl)
  rw [hvalue] at hcmp
  cases hless : t.lt (Device.orders 1) with
  | true =>
    have htlt := hcmp.mp hless
    refine ⟨t, ?_, (Nat.mod_eq_of_lt htlt).symm, .inl ⟨htlt.ne, ht⟩⟩
    rw [BigUint.mod, horder.not_isZero (by omega), if_neg Bool.false_ne_true, if_pos hless]
  | false =>
    have hge : NonNativeField.ed25519Base.order ≤ t.value := by
      rw [← not_lt, ← hcmp, hless]
      exact Bool.false_ne_true
    have htl : t.length = 8 := by
      refine (ht.length_le ?_).antisymm (hlength ▸ BigUint.length_le_of_not_lt hless)
      have : NonNativeField.ed25519Base.order + 38 < (2 ^ 32) ^ 8 := by decide
      omega
    obtain ⟨q, t', hloop⟩ := BigUint.exists_loopResult ht.clean horder (by rw [htl]; decide)
      (by omega) hless
    have hshift : (Device.orders 1).normShift = 1 := by decide
    have hexact := hloop.sum_eq_iff
    have hltV := hloop.lt
    rw [hlength, htl, hshift, hvalue] at hexact
    rw [hshift, hvalue] at hltV
    have hsum := hexact.mpr (lossless_ed25519 hge hlt)
    -- the quotient is one
    have hq : q.value = 1 := by
      have hlarge : 38 < NonNativeField.ed25519Base.order := by decide
      generalize NonNativeField.ed25519Base.order = p at *
      rcases Nat.lt_trichotomy q.value 1 with h | h | h
      · rw [Nat.lt_one_iff.mp h] at hsum
        omega
      · exact h
      · have := Nat.mul_le_mul_right (p * 2 ^ 1) h
        omega
    rw [hq, one_mul] at hsum
    have hmod : t.value % NonNativeField.ed25519Base.order =
        t.value - NonNativeField.ed25519Base.order := by
      rw [Nat.mod_eq_sub_mod hge, Nat.mod_eq_of_lt (by omega)]
    have ht' : t'.value = (t.value - NonNativeField.ed25519Base.order) * 2 ^ 1 := by omega
    refine ⟨t'.shr 1, hshift ▸ hloop.mod, ?_, ?_⟩
    · rw [BigUint.value_shr, ht', hmod, Nat.mul_div_cancel _ (by norm_num)]
    · rcases shr_one_form hloop.trimmed_remainder ht' (by omega) with
        ⟨hzero, heq⟩ | ⟨hne, htrim⟩
      · exact .inr ⟨by omega, heq⟩
      · exact .inl ⟨by omega, htrim⟩

lemma reduceOperand_eq (type : ℕ) (a : BigUint) : Device.reduceOperand type a =
    (if a.ge (Device.orders type) then a.sub (Device.orders type) else some a).bind fun aTemp =>
      if Device.modTable type then aTemp.mod (Device.orders type) else some aTemp := by
  rw [Device.reduceOperand]
  split_ifs <;> rfl

/-- Every operand below `2 ^ 256` is reduced. -/
lemma reduceOperand_spec (hfield : field.Supported) (hx : x.Trimmed) (hlt : x.value < 2 ^ 256) :
    ∃ r, Device.reduceOperand field.typeMap x = some r ∧ Reduced field x.value r := by
  obtain ⟨hspec, hhalf⟩ := hfield.spec
  obtain ⟨t, ht, htt, htv⟩ := exists_subOrder hspec hx
  rw [reduceOperand_eq, ht, Option.bind_some]
  rcases hhalf with ⟨rfl, htable, hhalf⟩ | ⟨hne, htable, hhalf⟩
  · have hbound : t.value < NonNativeField.ed25519Base.order + 38 := by
      rw [htv]
      split_ifs <;> omega
    obtain ⟨r, hr, hrv, hform⟩ := mod_ed25519 hspec htt hbound
    rw [htable, if_pos rfl]
    refine ⟨r, hr, ?_, ?_⟩
    · rw [hrv, htv]
      split_ifs with hle
      · exact (Nat.mod_eq_sub_mod hle).symm
      · rfl
    · have hdoubled : Doubled .ed25519Base x.value ↔
          t.value = NonNativeField.ed25519Base.order := by
        have hpos := hspec.prime.pos
        rw [Doubled, and_iff_right rfl, htv]
        split_ifs <;> omega
      rw [hdoubled]
      exact hform
  · rw [htable, if_neg Bool.false_ne_true]
    refine ⟨t, rfl, ?_, .inl ⟨fun h => hne h.1, htt⟩⟩
    rw [htv]
    split_ifs with hle
    · rw [Nat.mod_eq_sub_mod hle, Nat.mod_eq_of_lt (by omega)]
    · exact (Nat.mod_eq_of_lt (not_le.mp hle)).symm

end Operands

end MegaZK
