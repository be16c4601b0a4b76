import MegaZK.Challenger.Basic

/-! # The device challenger against the host challenger

The kernels compute what the host challenger computes as long as they are launched with the fill
of its buffers; what can go wrong is the prediction of that fill by the host. -/

namespace MegaZK

variable {F : Type*} [Zero F] {permute : (Fin 12 → F) → Fin 12 → F}

omit [Zero F] in
lemma overwrite_congr (st : Fin 12 → F) {n : ℕ} {f g : ℕ → F} (h : ∀ j < n, f j = g j) :
    overwrite st n f = overwrite st n g := by
  funext j
  unfold overwrite
  split_ifs with hj
  · exact h j hj
  · rfl

lemma getD_map_range {n j : ℕ} (hj : j < n) (f : ℕ → F) :
    ((List.range n).map f).getD j 0 = f j := by
  simp [List.getD, hj]

namespace Challenger

@[simp] lemma observeElements_nil (c : Challenger F) : c.observeElements permute [] = c := rfl

lemma observeElements_append (c : Challenger F) (xs ys : List F) :
    c.observeElements permute (xs ++ ys) =
      (c.observeElements permute xs).observeElements permute ys := by
  simp [observeElements]

lemma observeElements_singleton (c : Challenger F) (x : F) :
    c.observeElements permute [x] = c.observeElement permute x := rfl

/-- The buffers of a challenger: fewer inputs than the rate, and no outputs next to inputs. -/
structure Valid (c : Challenger F) : Prop where
  input_lt : c.inputBuffer.length < 8
  output_le : c.outputBuffer.length ≤ 8
  output_nil : c.inputBuffer ≠ [] → c.outputBuffer = []

lemma valid_new : (new : Challenger F).Valid := ⟨by simp [new], by simp [new], fun _ => rfl⟩

lemma valid_duplexing (c : Challenger F) : (c.duplexing permute).Valid :=
  ⟨by simp [duplexing], by simp [duplexing, rate], by simp [duplexing]⟩

lemma Valid.observeElement {c : Challenger F} (hc : c.Valid) (x : F) :
    (c.observeElement permute x).Valid := by
  unfold Challenger.observeElement
  dsimp only
  split_ifs with hfull
  · exact valid_duplexing _
  · have := hc.input_lt
    simp only [List.length_append, List.length_singleton, rate] at hfull ⊢
    exact ⟨by simp; omega, by simp, fun _ => rfl⟩

lemma Valid.observeElements {c : Challenger F} (hc : c.Valid) (xs : List F) :
    (c.observeElements permute xs).Valid := by
  induction xs generalizing c with
  | nil => exact hc
  | cons x xs ih => exact ih (hc.observeElement x)

lemma Valid.getChallenge {c : Challenger F} (hc : c.Valid) :
    (c.getChallenge permute).2.Valid := by
  unfold Challenger.getChallenge
  split_ifs with hdup
  · exact ⟨by simp [duplexing], by simp [duplexing, rate], by simp [duplexing]⟩
  · obtain ⟨hin, -⟩ := not_or.mp hdup
    simp only [ne_eq, not_not] at hin
    have := hc.output_le
    exact ⟨by simp [hin], by simp; omega, by simp [hin]⟩

lemma Valid.getNChallenges {c : Challenger F} (hc : c.Valid) (n : ℕ) :
    (c.getNChallenges permute n).2.Valid := by
  induction n generalizing c with
  | zero => exact hc
  | succ n ih => exact ih hc.getChallenge

lemma Valid.step {c : Challenger F} (hc : c.Valid) (op : Op F) :
    (c.step permute op).2.Valid := by
  cases op with
  | observe elts numElts offset => exact hc.observeElements _
  | get n => exact hc.getNChallenges n

end Challenger

namespace ChallengerGpu

/-! ### The kernels -/

/-- A kernel state that has the sponge and the buffered inputs of a host challenger. -/
structure Kernel.Absorbing (c : Challenger F) (k : Kernel F) : Prop where
  state : k.state = c.spongeState
  input : c.inputBuffer = (List.range k.current).map k.input
  current_lt : k.current < 8

/-- One iteration of `observe` absorbs one element. -/
lemma Kernel.Absorbing.observeStep {c : Challenger F} {k : Kernel F} (h : k.Absorbing c)
    (num offset : ℕ) (elements : ℕ → F) (i : ℕ) {e : F} (he : elements (u32 (i + offset)) = e) :
    let k' := observeStep permute num offset elements k i
    let c' := c.observeElement permute e
    k'.Absorbing c' ∧ k'.current = (k.current + 1) % 8 ∧
      (k'.current ≠ 0 → c'.outputBuffer = []) ∧
      (k'.current = 0 → num - i ≤ 8 →
        c'.outputBuffer = (List.range 8).map k'.output) := by
  intro k' c'
  have hlt := h.current_lt
  have hlen : c.inputBuffer.length = k.current := by rw [h.input]; simp
  -- the new element lands behind the buffered ones on both sides
  have hinput : c.inputBuffer ++ [e] =
      (List.range (k.current + 1)).map (Function.update k.input k.current e) := by
    rw [h.input, List.range_succ, List.map_append]
    congr 1
    · apply List.map_congr_left
      intro j hj
      rw [Function.update_of_ne (by simp at hj; omega)]
    · simp
  by_cases hfull : k.current + 1 = 8
  · have hmod : (k.current + 1) % 8 = 0 := by omega
    have hdup : overwrite c.spongeState 8 ((c.inputBuffer ++ [e]).getD · 0) =
        overwrite k.state 8 (Function.update k.input k.current e) := by
      rw [h.state, hinput, hfull]
      exact overwrite_congr _ (fun j hj => getD_map_range hj _)
    have hc' : c' = ⟨permute (overwrite k.state 8 (Function.update k.input k.current e)), [],
        (List.range 8).map
          (lane (permute (overwrite k.state 8 (Function.update k.input k.current e))))⟩ := by
      simp only [c', Challenger.observeElement, List.length_append, hlen, List.length_singleton,
        hfull, rate, ↓reduceIte, Challenger.duplexing, hdup]
    have hk' : k'.state = permute (overwrite k.state 8 (Function.update k.input k.current e)) ∧
        k'.current = 0 ∧ (num - i ≤ 8 → ∀ j < 8, k'.output j = lane k'.state j) := by
      simp only [k', ChallengerGpu.observeStep, hmod, ↓reduceIte, he]
      split_ifs with hnum
      · refine ⟨rfl, rfl, fun _ j hj => ?_⟩
        simp [setOutput, hj]
      · exact ⟨rfl, rfl, fun hle => absurd hle hnum⟩
    obtain ⟨hstate, hcur, hout⟩ := hk'
    refine ⟨⟨?_, ?_, ?_⟩, by rw [hcur, hmod], fun hne => absurd hcur hne, fun _ hle => ?_⟩
    · rw [hstate, hc']
    · rw [hc', hcur]; rfl
    · omega
    · rw [hc']
      apply List.map_congr_left
      intro j hj
      rw [hout hle j (List.mem_range.mp hj), hstate]
  · have hmod : (k.current + 1) % 8 = k.current + 1 := Nat.mod_eq_of_lt (by omega)
    have hc' : c' = { c with outputBuffer := [], inputBuffer := c.inputBuffer ++ [e] } := by
      simp only [c', Challenger.observeElement, List.length_append, hlen, List.length_singleton,
        rate, hfull, ↓reduceIte]
    have hk' : k' = { k with
        input := Function.update k.input k.current e, current := k.current + 1 } := by
      simp [k', ChallengerGpu.observeStep, hmod, he]
    rw [hc', hk']
    refine ⟨⟨h.state, hinput, by simp; omega⟩, hmod.symm, fun _ => rfl, fun hzero => ?_⟩
    simp at hzero

/-- The iterations of `observe` up to the `i`-th absorb the first `i` elements. -/
lemma Kernel.Absorbing.foldl_observeStep {c : Challenger F} {k : Kernel F} (h : k.Absorbing c)
    (permute : (Fin 12 → F) → Fin 12 → F) (num offset : ℕ) (elements : ℕ → F) (i : ℕ) :
    let k' := (List.range i).foldl (ChallengerGpu.observeStep permute num offset elements) k
    let c' := c.observeElements permute
      ((List.range i).map fun i => elements (u32 (i + offset)))
    k'.Absorbing c' ∧ k'.current = (k.current + i) % 8 ∧
      (0 < i → k'.current ≠ 0 → c'.outputBuffer = []) ∧
      (0 < i → k'.current = 0 → num - (i - 1) ≤ 8 →
        c'.outputBuffer = (List.range 8).map k'.output) := by
  induction i with
  | zero =>
    have := h.current_lt
    exact ⟨h, by simp; omega, by simp, by simp⟩
  | succ i ih =>
    obtain ⟨habs, hcur, -, -⟩ := ih
    obtain ⟨habs', hcur', hne, hzero⟩ := habs.observeStep num offset elements i rfl
    simp only [List.range_succ, List.foldl_append, List.foldl_cons, List.foldl_nil,
      List.map_append, List.map_cons, List.map_nil, Challenger.observeElements_append,
      Challenger.observeElements_singleton]
    refine ⟨habs', ?_, fun _ => hne, fun _ hz hle => hzero hz hle⟩
    rw [hcur', hcur]
    omega

/-- The kernel state and a host challenger without buffered inputs have the same outputs. -/
structure Kernel.Squeezing (c : Challenger F) (k : Kernel F) : Prop where
  state : k.state = c.spongeState
  input : c.inputBuffer = []
  output : c.outputBuffer = (List.range k.current).map k.output
  current_le : k.current ≤ 8

lemma squeezing_duplexing {c : Challenger F} {k : Kernel F} {n : ℕ}
    (hstate : k.state = c.spongeState) (hinput : c.inputBuffer = (List.range n).map k.input) :
    Kernel.Squeezing (c.duplexing permute)
      { setOutput (ChallengerGpu.duplexing permute n k) with current := 8 } := by
  have hdup : overwrite c.spongeState c.inputBuffer.length (c.inputBuffer.getD · 0) =
      overwrite k.state n k.input := by
    rw [hstate, hinput, List.length_map, List.length_range]
    exact overwrite_congr _ (fun j hj => getD_map_range hj _)
  refine ⟨?_, rfl, ?_, le_refl 8⟩
  · simp only [Challenger.duplexing, ChallengerGpu.duplexing, setOutput, hdup]
  · simp only [Challenger.duplexing, ChallengerGpu.duplexing, setOutput, hdup, rate]
    apply List.map_congr_left
    intro j hj
    rw [if_pos (List.mem_range.mp hj)]

/-- One iteration of `get` squeezes one element. -/
lemma Kernel.Squeezing.getStep {c : Challenger F} {k : Kernel F} (h : k.Squeezing c)
    (permute : (Fin 12 → F) → Fin 12 → F) :
    (ChallengerGpu.getStep permute k).1 = (c.getChallenge permute).1 ∧
      (ChallengerGpu.getStep permute k).2.Squeezing (c.getChallenge permute).2 ∧
      (ChallengerGpu.getStep permute k).2.current = (k.current + 7) % 8 := by
  have hpop : ∀ {c : Challenger F} {k : Kernel F}, k.Squeezing c → 0 < k.current →
      k.output (k.current - 1) = c.outputBuffer.getLastD 0 ∧
      Kernel.Squeezing { c with outputBuffer := c.outputBuffer.dropLast }
        { k with current := (k.current + 7) % 8 } := by
    intro c k h hpos
    have hle := h.current_le
    have hcur : (k.current + 7) % 8 = k.current - 1 := by omega
    obtain ⟨m, hm⟩ := Nat.exists_eq_succ_of_ne_zero (Nat.pos_iff_ne_zero.mp hpos)
    have hout := h.output
    rw [hm, Nat.succ_eq_add_one, List.range_succ, List.map_append] at hout
    rw [hcur]
    refine ⟨?_, ⟨h.state, h.input, ?_, by simp; omega⟩⟩
    · rw [hout, hm]; simp
    · rw [hout, hm]; simp
  have hle := h.current_le
  unfold ChallengerGpu.getStep Challenger.getChallenge
  by_cases hzero : k.current = 0
  · have hout : c.outputBuffer = [] := by rw [h.output, hzero]; rfl
    have hdup : Kernel.Squeezing (c.duplexing permute)
        { setOutput (ChallengerGpu.duplexing permute 0 k) with current := 8 } :=
      squeezing_duplexing h.state (by rw [h.input]; rfl)
    obtain ⟨hlast, hsq⟩ := hpop hdup (by simp)
    rw [if_pos hzero, if_pos (.inr hout), hzero]
    exact ⟨hlast, hsq, by simp⟩
  · have hout : c.outputBuffer ≠ [] := by
      rw [h.output]
      simpa using hzero
    obtain ⟨hlast, hsq⟩ := hpop h (Nat.pos_of_ne_zero hzero)
    rw [if_neg hzero, if_neg (by simp [h.input, hout])]
    exact ⟨hlast, hsq, rfl⟩

lemma Kernel.Squeezing.getLoop {c : Challenger F} {k : Kernel F} (h : k.Squeezing c)
    (permute : (Fin 12 → F) → Fin 12 → F) (n : ℕ) :
    (ChallengerGpu.getLoop permute k n).1 = (c.getNChallenges permute n).1 ∧
      (ChallengerGpu.getLoop permute k n).2.Squeezing (c.getNChallenges permute n).2 ∧
      (0 < n → (ChallengerGpu.getLoop permute k n).2.current = (k.current + 7 * n) % 8) := by
  induction n generalizing c k with
  | zero => exact ⟨rfl, h, by simp⟩
  | succ n ih =>
    obtain ⟨hx, hsq, hcur⟩ := h.getStep permute
    obtain ⟨hxs, hsq', hcur'⟩ := ih hsq
    refine ⟨?_, hsq', fun _ => ?_⟩
    · simp only [ChallengerGpu.getLoop, Challenger.getNChallenges]
      rw [hx, hxs]
    · cases n with
      | zero => simpa [ChallengerGpu.getLoop] using hcur
      | succ n =>
        rw [show (ChallengerGpu.getLoop permute k (n + 1 + 1)).2 =
          (ChallengerGpu.getLoop permute (ChallengerGpu.getStep permute k).2 (n + 1)).2 from rfl]
        rw [hcur' (Nat.succ_pos n), hcur]
        omega

/-! ### The host indices -/

/-- The device challenger carries the state of a host challenger. The second index matters only
when no input is buffered, since `get` duplexes otherwise. -/
structure Follows (c : Challenger F) (g : ChallengerGpu F) : Prop where
  sponge : g.spongeState = c.spongeState
  input : c.inputBuffer = (List.range g.inIdx).map g.inputBuffer
  in_lt : g.inIdx < 8
  out_le : g.outIdx ≤ 8
  output : g.inIdx = 0 → c.outputBuffer = (List.range g.outIdx).map g.outputBuffer

lemma follows_new : Follows (.new : Challenger F) .new :=
  ⟨rfl, rfl, by simp [new], by simp [new], fun _ => rfl⟩

omit [Zero F] in
lemma Follows.inIdx_eq {c : Challenger F} {g : ChallengerGpu F} (h : Follows c g) :
    g.inIdx = c.inputBuffer.length := by
  rw [h.input]; simp

/-- The rate divides `2 ^ 32`, so the first host index is not affected by the truncation. -/
lemma u32_add_mod_eight (a len : ℕ) : u32 (a + u32 len) % 8 = (a + len) % 8 := by
  simp only [u32]
  omega

lemma inIdx_observe (permute : (Fin 12 → F) → Fin 12 → F) (g : ChallengerGpu F)
    (elts : DeviceBuffer F) (numElts offset : ℕ) :
    (g.observeElementsGpu permute elts numElts offset).inIdx = (g.inIdx + elts.len) % 8 :=
  u32_add_mod_eight _ _

/-- What the device holds after an observation that is launched with the right first index. -/
lemma Follows.observe {c : Challenger F} {g : ChallengerGpu F} (h : Follows c g)
    (permute : (Fin 12 → F) → Fin 12 → F) (elts : DeviceBuffer F) {numElts offset : ℕ} (hnum : numElts < 2 ^ 32)
    (hend : offset + numElts ≤ 2 ^ 32) :
    let g' := g.observeElementsGpu permute elts numElts offset
    let c' := c.observeElements permute (elts.slice numElts offset)
    let b := (g.inIdx + numElts) % 8
    g'.spongeState = c'.spongeState ∧
      c'.inputBuffer = (List.range b).map g'.inputBuffer ∧
      (numElts = 0 → g'.outputBuffer = g.outputBuffer ∧ c' = c) ∧
      (0 < numElts → b ≠ 0 → c'.outputBuffer = []) ∧
      (0 < numElts → b = 0 → c'.outputBuffer = (List.range 8).map g'.outputBuffer) := by
  intro g' c' b
  have habs : Kernel.Absorbing c
      ⟨g.spongeState, g.inputBuffer, g.outputBuffer, g.inIdx⟩ := ⟨h.sponge, h.input, h.in_lt⟩
  have hslice : elts.slice numElts offset =
      (List.range numElts).map fun i => elts.cell (u32 (i + u32 offset)) := by
    apply List.map_congr_left
    intro i hi
    have hi := List.mem_range.mp hi
    rw [u32_of_lt (x := offset) (by omega), u32_of_lt (by omega), Nat.add_comm]
  obtain ⟨habs', hcur, hne, hzero⟩ :=
    habs.foldl_observeStep permute numElts (u32 offset) elts.cell numElts
  rw [← hslice] at habs' hne hzero
  have hk : g' = g.observeElementsGpu permute elts numElts offset := rfl
  simp only [observeElementsGpu, ChallengerGpu.observe, u32_of_lt hnum] at hk
  refine ⟨?_, ?_, ?_, ?_, ?_⟩
  · rw [hk]
    exact habs'.state
  · rw [hk]
    have hinput := habs'.input
    rw [hcur] at hinput
    exact hinput
  · intro hnum0
    subst hnum0
    exact ⟨by rw [hk]; rfl, rfl⟩
  · intro hpos hb
    exact hne hpos (by rw [hcur]; exact hb)
  · intro hpos hb
    rw [hk]
    exact hzero hpos (by rw [hcur]; exact hb) (by omega)

/-- Squeezing keeps the two sides together, and sets both indices right. -/
lemma Follows.get {c : Challenger F} {g : ChallengerGpu F} (h : Follows c g)
    (permute : (Fin 12 → F) → Fin 12 → F) {n : ℕ} (hpos : 1 ≤ n) (hn : n < 2 ^ 32) :
    (g.getNChallengesGpu permute n).1 = (c.getNChallenges permute n).1 ∧
      Follows (c.getNChallenges permute n).2 (g.getNChallengesGpu permute n).2 ∧
      (g.getNChallengesGpu permute n).2.outIdx =
        (c.getNChallenges permute n).2.outputBuffer.length := by
  have hin_nil : c.inputBuffer = [] ↔ g.inIdx = 0 := by rw [h.input]; simp
  have hlt := h.in_lt
  have hle := h.out_le
  -- both sides duplex before the first element under the same condition
  obtain ⟨c₁, k₁, hc₁, hk₁, hsq, hcur⟩ : ∃ c₁ : Challenger F, ∃ k₁ : Kernel F,
      (c.getNChallenges permute n = c₁.getNChallenges permute n) ∧
      g.get permute n = getLoop permute k₁ n ∧ k₁.Squeezing c₁ ∧
      (k₁.current + 7 * n) % 8 =
        if g.inIdx ≠ 0 then (8 - n % 8) % 8 else (g.outIdx + 8 - n % 8) % 8 := by
    by_cases hdup : g.inIdx ≠ 0 ∨ g.outIdx = 0
    · have hcdup : c.inputBuffer ≠ [] ∨ c.outputBuffer = [] := by
        by_cases hin : g.inIdx = 0
        · refine .inr ?_
          rw [h.output hin, hdup.resolve_left (not_not.mpr hin)]
          rfl
        · exact .inl (mt hin_nil.mp hin)
      refine ⟨c.duplexing permute, _, ?_, by rw [ChallengerGpu.get, if_pos hdup],
        squeezing_duplexing (k := ⟨_, _, _, _⟩) h.sponge h.input, ?_⟩
      · obtain ⟨m, rfl⟩ := Nat.exists_eq_add_of_le' hpos
        simp only [Challenger.getNChallenges, Challenger.getChallenge]
        rw [if_pos hcdup, if_neg (by simp [Challenger.duplexing, rate])]
      · split_ifs with hin
        · simp only
          omega
        · have := hdup.resolve_left hin
          simp only
          omega
    · obtain ⟨hin, hout⟩ := not_or.mp hdup
      simp only [ne_eq, not_not] at hin
      refine ⟨c, _, rfl, by rw [ChallengerGpu.get, if_neg hdup],
        ⟨h.sponge, hin_nil.mpr hin, h.output hin, hle⟩, ?_⟩
      simp only [hin, ne_eq, not_true_eq_false, ↓reduceIte]
      omega
  obtain ⟨hxs, hsq', hcur'⟩ := hsq.getLoop permute n
  have hk : (g.getNChallengesGpu permute n).2 =
      { spongeState := (getLoop permute k₁ n).2.state
        inputBuffer := (getLoop permute k₁ n).2.input
        outputBuffer := (getLoop permute k₁ n).2.output
        inIdx := 0
        outIdx := (getLoop permute k₁ n).2.current } := by
    simp only [getNChallengesGpu, u32_of_lt hn, hk₁, hcur' hpos, hcur]
  rw [hk, hc₁]
  refine ⟨?_, ⟨hsq'.state, hsq'.input, by simp, hsq'.current_le, fun _ => hsq'.output⟩, ?_⟩
  · simp only [getNChallengesGpu, u32_of_lt hn, hk₁]
    exact hxs
  · rw [hsq'.output]
    simp

end ChallengerGpu

/-! ### Whole transcripts -/

/-- The host predicts the fill of the buffers after the operation, when `a` inputs and `o`
outputs were buffered before it. With `b` inputs buffered afterwards: the whole buffer has the
length of the absorbed part modulo the rate, and it is short or long enough for the comparison
with the rate to tell whether the absorption ended with a permutation. -/
def Op.Predicted (a o : ℕ) : Op F → Prop
  | .observe elts numElts offset =>
    let b := (a + numElts) % 8
    numElts < 2 ^ 32 ∧ offset + numElts ≤ 2 ^ 32 ∧ elts.len % 8 = numElts % 8 ∧
      (numElts = 0 → o = 8 ∨ u32 (b + u32 elts.len) < 8) ∧
      (0 < numElts → b = 0 → o = 8 ∨ 8 ≤ u32 (b + u32 elts.len)) ∧
      (0 < numElts → b ≠ 0 → o = 0 ∧ u32 (b + u32 elts.len) < 8)
  | .get n => n < 2 ^ 32

/-- Every operation of a transcript is predicted, from the state of the host challenger. -/
def Challenger.Predicted (permute : (Fin 12 → F) → Fin 12 → F) (c : Challenger F) :
    List (Op F) → Prop
  | [] => True
  | op :: ops => op.Predicted c.inputBuffer.length c.outputBuffer.length ∧
      (c.step permute op).2.Predicted permute ops

/-- Both indices of the device challenger are the lengths of the host challenger's buffers. -/
structure ChallengerGpu.Tracks (c : Challenger F) (g : ChallengerGpu F) : Prop extends
    Follows c g where
  valid : c.Valid
  outIdx_eq : g.outIdx = c.outputBuffer.length

lemma ChallengerGpu.Tracks.step {c : Challenger F} {g : ChallengerGpu F} (h : Tracks c g)
    (permute : (Fin 12 → F) → Fin 12 → F) {op : Op F} (hwf : op.WellFormed)
    (hop : op.Predicted c.inputBuffer.length c.outputBuffer.length) :
    (g.step permute op).1 = (c.step permute op).1 ∧
      Tracks (c.step permute op).2 (g.step permute op).2 := by
  cases op with
  | get n =>
    obtain ⟨hxs, hfollows, hout⟩ := h.toFollows.get permute hwf hop
    exact ⟨hxs, hfollows, h.valid.step _, hout⟩
  | observe elts numElts offset =>
    rw [← h.inIdx_eq, ← h.outIdx_eq] at hop
    obtain ⟨hnum, hend, hlen, hnone, hfull, hpart⟩ := hop
    obtain ⟨hsponge, hinput, hzero, hne, heq⟩ :=
      h.toFollows.observe permute elts hnum hend
    have hin : (g.observeElementsGpu permute elts numElts offset).inIdx =
        (g.inIdx + numElts) % 8 := by
      rw [ChallengerGpu.inIdx_observe]
      omega
    have hout : (g.observeElementsGpu permute elts numElts offset).outIdx =
        if u32 ((g.inIdx + numElts) % 8 + u32 elts.len) ≥ 8 then 8 else g.outIdx := by
      rw [← hin]
      rfl
    have hvalid : (c.observeElements permute (elts.slice numElts offset)).Valid :=
      h.valid.observeElements _
    have hlt := h.in_lt
    -- the outputs after the observation, by how it ended
    have hkey : (g.observeElementsGpu permute elts numElts offset).outIdx =
          (c.observeElements permute (elts.slice numElts offset)).outputBuffer.length ∧
        ((g.inIdx + numElts) % 8 = 0 →
          (c.observeElements permute (elts.slice numElts offset)).outputBuffer =
            (List.range (g.observeElementsGpu permute elts numElts offset).outIdx).map
              (g.observeElementsGpu permute elts numElts offset).outputBuffer) := by
      rw [hout]
      rcases Nat.eq_zero_or_pos numElts with hnum0 | hpos
      · obtain ⟨hbuf, hc⟩ := hzero hnum0
        have hkeep : (if u32 ((g.inIdx + numElts) % 8 + u32 elts.len) ≥ 8 then 8
            else g.outIdx) = g.outIdx := by
          have := hnone hnum0
          split_ifs <;> omega
        rw [hkeep, hbuf, hc]
        exact ⟨h.outIdx_eq, fun hb => h.output (by omega)⟩
      · by_cases hb : (g.inIdx + numElts) % 8 = 0
        · have hset : (if u32 ((g.inIdx + numElts) % 8 + u32 elts.len) ≥ 8 then 8
              else g.outIdx) = 8 := by
            have := hfull hpos hb
            split_ifs <;> omega
          rw [hset, heq hpos hb]
          exact ⟨by simp, fun _ => rfl⟩
        · obtain ⟨ho, hshort⟩ := hpart hpos hb
          rw [if_neg (by omega), ho, hne hpos hb]
          exact ⟨rfl, fun hb' => absurd hb' hb⟩
    refine ⟨rfl, ⟨hsponge, ?_, ?_, ?_, ?_⟩, hvalid, hkey.1⟩
    · rw [← hin] at hinput
      exact hinput
    · change (g.observeElementsGpu permute elts numElts offset).inIdx < 8
      omega
    · change (g.observeElementsGpu permute elts numElts offset).outIdx ≤ 8
      rw [hkey.1]
      exact hvalid.output_le
    · intro hin0
      exact hkey.2 (hin.symm.trans hin0)

lemma ChallengerGpu.Tracks.run (ops : List (Op F)) {c : Challenger F} {g : ChallengerGpu F}
    (h : Tracks c g) (hwf : ∀ op ∈ ops, op.WellFormed) (hops : c.Predicted permute ops) :
    (g.run permute ops).1 = (c.run permute ops).1 ∧
      Tracks (c.run permute ops).2 (g.run permute ops).2 := by
  induction ops generalizing c g with
  | nil => exact ⟨rfl, h⟩
  | cons op ops ih =>
    obtain ⟨hxs, hstep⟩ := h.step permute (hwf op (by simp)) hops.1
    obtain ⟨hys, hrun⟩ := ih hstep (fun op' hop' => hwf op' (by simp [hop'])) hops.2
    refine ⟨?_, hrun⟩
    simp only [ChallengerGpu.run, Challenger.run]
    rw [hxs, hys]

lemma Challenger.Predicted.of_prefix {pre ops : List (Op F)} (hpre : pre <+: ops)
    {c : Challenger F} (h : c.Predicted permute ops) : c.Predicted permute pre := by
  obtain ⟨post, rfl⟩ := hpre
  induction pre generalizing c with
  | nil => trivial
  | cons op pre ih => exact ⟨h.1, ih h.2⟩

lemma ChallengerGpu.tracks_new : Tracks (.new : Challenger F) .new :=
  ⟨follows_new, Challenger.valid_new, rfl⟩

/-- The two challengers agree after the operations `ops` from fresh states: on the squeezed
elements, and the host indices are the lengths of the buffers. -/
def AgreeAfter (permute : (Fin 12 → F) → Fin 12 → F) (ops : List (Op F)) : Prop :=
  let cpu := Challenger.run permute .new ops
  let gpu := ChallengerGpu.run permute .new ops
  gpu.1 = cpu.1 ∧ gpu.2.inIdx = cpu.2.inputBuffer.length ∧
    gpu.2.outIdx = cpu.2.outputBuffer.length

/-- In a transcript whose operations are all predicted, the device challenger agrees with the
host challenger after every operation. -/
theorem ChallengerGpu.agreeAfter_of_predicted (permute : (Fin 12 → F) → Fin 12 → F)
    (ops : List (Op F)) (hwf : ∀ op ∈ ops, op.WellFormed)
    (hops : (Challenger.new : Challenger F).Predicted permute ops) :
    ∀ pre, pre <+: ops → AgreeAfter permute pre := by
  intro pre hpre
  obtain ⟨hxs, htracks⟩ := tracks_new.run pre
    (fun op hop => hwf op (hpre.subset hop)) (hops.of_prefix hpre)
  exact ⟨hxs, htracks.inIdx_eq, htracks.outIdx_eq⟩

/-- Eight elements and a squeeze: the fill is predicted. -/
theorem ChallengerGpu.agreeAfter_block :
    AgreeAfter (fun st j => st j + 1) [(.observe ⟨8, id⟩ 8 0 : Op ℕ), .get 2, .get 9] :=
  ChallengerGpu.agreeAfter_of_predicted (fun st j => st j + 1)
    [(.observe ⟨8, id⟩ 8 0 : Op ℕ), .get 2, .get 9]
    (by
      intro op hop
      simp only [List.mem_cons, List.not_mem_nil, or_false] at hop
      rcases hop with rfl | rfl | rfl
      · exact le_refl 8
      · exact Nat.le_of_ble_eq_true rfl
      · exact Nat.le_of_ble_eq_true rfl)
    ⟨by simp [Op.Predicted, Challenger.new, u32], by simp [Op.Predicted],
      by simp [Op.Predicted], trivial⟩ _ List.prefix_rfl

/-- The cap of a tree with cap height 0 is four elements out of a longer buffer: the host takes
the input buffer for empty and the output buffer for full, and the next challenge is read from
outputs that were never computed. -/
theorem ChallengerGpu.not_agreeAfter_cap :
    (∀ op ∈ [(.observe ⟨8, id⟩ 4 0 : Op ℕ), .get 1], op.WellFormed) ∧
      ¬ AgreeAfter (fun st j => st j + 1) [(.observe ⟨8, id⟩ 4 0 : Op ℕ), .get 1] := by
  refine ⟨?_, ?_⟩
  · intro op hop
    simp only [List.mem_cons, List.not_mem_nil, or_false] at hop
    rcases hop with rfl | rfl
    · exact Nat.le_of_ble_eq_true rfl
    · exact le_refl 1
  · intro h
    have h₁ : (ChallengerGpu.run (fun st j => st j + 1) .new
        [(.observe ⟨8, id⟩ 4 0 : Op ℕ), .get 1]).1 = [0] := by decide
    have h₂ : (Challenger.run (fun st j => st j + 1) .new
        [(.observe ⟨8, id⟩ 4 0 : Op ℕ), .get 1]).1 = [1] := by decide
    have h₃ := h.1
    rw [h₁, h₂] at h₃
    simp at h₃

end MegaZK
