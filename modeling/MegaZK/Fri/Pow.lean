import MegaZK.Challenger.Tracking
import MegaZK.Poseidon.Words

/-! # Proof of work

The host launches `fri_pow_new` until a launch reports a nonce. A launch leaves to the schedule
which words of the shared state a thread loads, and which stores of the other threads the first
one sees when it scans for a result. -/

namespace MegaZK.Fri

/-- `(threads * blocks)`. -/
def numThreads : ℕ := 128 * 64

/-- What the host and the verifier ask for: `proof_of_work_bits + (64 - F::order().bits())`. -/
def minLeadingZeros (proofOfWorkBits : ℕ) : ℕ := proofOfWorkBits + (64 - goldilocksOrder.size)

/-- `u64::leading_zeros`. -/
def leadingZeros (x : ℕ) : ℕ := 64 - x.size

/-- `FriPowInputs`. -/
structure PowInputs where
  inputBuffer : ℕ → GoldilocksField
  spongeState : Fin 12 → GoldilocksField
  inIdx : ℕ
  minLeadingZeros : ℕ

/-- The inputs that the orchestrator takes from the challenger. -/
def PowInputs.ofChallenger (g : ChallengerGpu GoldilocksField) (proofOfWorkBits : ℕ) :
    PowInputs where
  inputBuffer := g.inputBuffer
  spongeState := g.spongeState
  inIdx := g.inIdx
  minLeadingZeros := Fri.minLeadingZeros proofOfWorkBits

/-- `FriPowBuffers`. -/
structure PowBuffers where
  witness : GoldilocksField
  found : ℕ
  foundBuf : ℕ → ℕ
  buf : ℕ → GoldilocksField

/-- What a launch leaves open: the words that a thread loads from `init_state`, and whether the
scan of the first thread sees the flag and the nonce that another one has stored. -/
structure PowSchedule where
  initState : ℕ → Fin 12 → GoldilocksField
  flagSeen : ℕ → Bool
  nonceSeen : ℕ → Bool

/-- `init_state` once it is filled. -/
def PowInputs.initState (input : PowInputs) : Fin 12 → GoldilocksField :=
  overwrite input.spongeState input.inIdx input.inputBuffer

/-- The state that a thread permutes for a nonce. -/
def setNonce (initState : Fin 12 → GoldilocksField) (inIdx : ℕ) (nonce : GoldilocksField) :
    Fin 12 → GoldilocksField :=
  fun j => if (j : ℕ) = inIdx then nonce else initState j

/-- The loop of a thread: the nonces it tries and the one it stops at. -/
def tryNonces (accepts : GoldilocksField → Bool) (stride : GoldilocksField) :
    ℕ → GoldilocksField → List GoldilocksField × Option GoldilocksField
  | 0, _ => ([], none)
  | n + 1, current =>
    if accepts current then ([current], some current)
    else
      let rest := tryNonces accepts stride n (current + stride)
      (current :: rest.1, rest.2)

section Kernel

-- `to_u64(field3_to_field2(state[7]))` after `permute_state`
variable (response : (Fin 12 → GoldilocksField) → ℕ)

variable (input : PowInputs)

/-- `63 - min_leading_zeros` of `unsigned`. -/
def PowInputs.shift : ℕ := u32 (63 + (2 ^ 32 - u32 input.minLeadingZeros))

/-- `more == 0`. -/
def accepts (initState : Fin 12 → GoldilocksField) (nonce : GoldilocksField) : Bool :=
  response (setNonce initState input.inIdx nonce) >>> input.shift = 0

/-- The loop of thread `g`. -/
def threadNonces (s : PowSchedule) (offset g : ℕ) : List GoldilocksField × Option GoldilocksField :=
  tryNonces (accepts response input (s.initState g)) (numThreads : ℕ) (1 <<< 3) ((g + offset : ℕ))

/-- The buffers once every thread has left its loop. -/
def storeNonces (s : PowSchedule) (offset : ℕ) (mem : PowBuffers) : PowBuffers :=
  { mem with
    foundBuf := fun g =>
      if g < numThreads ∧ (threadNonces response input s offset g).2.isSome then 1
      else mem.foundBuf g
    buf := fun g =>
      if g < numThreads then (threadNonces response input s offset g).2.getD (mem.buf g)
      else mem.buf g }

/-- `fri_pow_new`. Shifting a 64-bit word by more than 63 bits is undefined. -/
def friPowNew (s : PowSchedule) (offset : ℕ) (mem : PowBuffers) : Option PowBuffers :=
  if 64 ≤ input.shift then none
  else
    let stored := storeNonces response input s offset mem
    let flag i := if i = 0 ∨ s.flagSeen i then stored.foundBuf i else mem.foundBuf i
    let nonce i := if i = 0 ∨ s.nonceSeen i then stored.buf i else mem.buf i
    match (List.range numThreads).find? fun i => flag i = 1 with
    | none => some stored
    | some i => some { stored with witness := nonce i, found := 1 }

/-- The loop of `FriPowService::compute`: the buffers when it leaves. -/
def compute (schedule : ℕ → PowSchedule) : ℕ → ℕ → ℕ → PowBuffers → Option PowBuffers
  | 0, _, _, _ => none
  | fuel + 1, round, offset, mem => do
    let mem ← friPowNew response input (schedule round) offset mem
    if mem.found = 1 then return mem
    else compute schedule fuel (round + 1) (u32 (offset + numThreads * 8)) mem

end Kernel

/-! ### The property -/

/-- The verifier's response to a nonce: observed by its challenger, then a challenge. -/
def powResponse (permute : (Fin 12 → GoldilocksField) → Fin 12 → GoldilocksField)
    (c : Challenger GoldilocksField) (nonce : GoldilocksField) : GoldilocksField :=
  ((c.observeElement permute nonce).getChallenge permute).1

/-- Nonce `i` of thread `g` in a round. -/
def nonceAt (round g i : ℕ) : ℕ := u32 (round * (numThreads * 8)) + g + numThreads * i

/-- The places of nonces before the offset wraps. -/
def NoncePlace (round g i : ℕ) : Prop := round < 2 ^ 16 ∧ g < numThreads ∧ i < 8

/-- The nonces of the rounds are the numbers below `2 ^ 32`, each at one place and each another
element of the field. -/
def NoncesCover : Prop :=
  (∀ v < 2 ^ 32, ∃ round g i, NoncePlace round g i ∧ nonceAt round g i = v) ∧
    ∀ round g i round' g' i', NoncePlace round g i → NoncePlace round' g' i' →
      (nonceAt round g i : GoldilocksField) = nonceAt round' g' i' →
        round = round' ∧ g = g' ∧ i = i'

/-- A thread tries its nonces in order, all of them unless it stops at one that passes. -/
def TriesInOrder (response : (Fin 12 → GoldilocksField) → ℕ) (input : PowInputs)
    (schedule : ℕ → PowSchedule) : Prop :=
  ∀ round g, ∃ n ≤ 8,
    (threadNonces response input (schedule round) (u32 (round * (numThreads * 8))) g).1 =
      (List.range n).map (fun i => (nonceAt round g i : GoldilocksField)) ∧
    (n < 8 → ∃ i, n = i + 1 ∧
      accepts response input ((schedule round).initState g) (nonceAt round g i) = true)

/-- Every witness that the host returns meets the verifier's demand and is a nonce that was
tried. -/
def ReturnsWitness (permute : (Fin 12 → GoldilocksField) → Fin 12 → GoldilocksField)
    (response : (Fin 12 → GoldilocksField) → ℕ) (c : Challenger GoldilocksField)
    (input : PowInputs) (proofOfWorkBits : ℕ) (schedule : ℕ → PowSchedule) (mem : PowBuffers) :
    Prop :=
  ∀ fuel mem', compute response input schedule fuel 0 0 mem = some mem' →
    minLeadingZeros proofOfWorkBits ≤
      leadingZeros (powResponse permute c mem'.witness).val ∧
    ∃ round < fuel, ∃ g < numThreads, ∃ i < 8, mem'.witness = nonceAt round g i

/-- The threads load the shared state after it is filled, and the scan sees a nonce whose flag it
sees. -/
def PowSchedule.Ordered (s : PowSchedule) (input : PowInputs) : Prop :=
  (∀ g < numThreads, s.initState g = input.initState) ∧
    ∀ g < numThreads, s.flagSeen g → s.nonceSeen g

/-! ### Nonces -/

lemma tryNonces_spec (accepts : GoldilocksField → Bool) (stride current : GoldilocksField) (n : ℕ) :
    ∃ k ≤ n, (tryNonces accepts stride n current).1 =
        (List.range k).map (fun i : ℕ => current + i * stride) ∧
      (k < n → ∃ i, k = i + 1 ∧ accepts (current + i * stride) = true) ∧
      ∀ w, (tryNonces accepts stride n current).2 = some w →
        accepts w = true ∧ ∃ i < n, w = current + i * stride := by
  induction n generalizing current with
  | zero => exact ⟨0, le_rfl, rfl, by simp, by simp [tryNonces]⟩
  | succ n ih =>
    rw [tryNonces]
    by_cases haccepts : accepts current = true
    · rw [if_pos haccepts]
      refine ⟨1, by omega, by simp, fun _ => ⟨0, rfl, by simpa using haccepts⟩, ?_⟩
      intro w hw
      cases hw
      exact ⟨haccepts, 0, by omega, by simp⟩
    · rw [if_neg haccepts]
      obtain ⟨k, hk, htried, hstop, hfound⟩ := ih (current + stride)
      have hshift : ∀ i : ℕ, current + stride + i * stride = current + (i + 1 : ℕ) * stride := by
        intro i
        push_cast
        ring
      refine ⟨k + 1, by omega, ?_, ?_, ?_⟩
      · rw [List.range_succ_eq_map, List.map_cons, List.map_map]
        simp only [htried, hshift, Nat.cast_zero, zero_mul, add_zero]
        rfl
      · intro hlt
        obtain ⟨i, rfl, hi⟩ := hstop (by omega)
        exact ⟨i + 1, rfl, hshift i ▸ hi⟩
      · intro w hw
        obtain ⟨haccept, i, hi, rfl⟩ := hfound w hw
        exact ⟨haccept, i + 1, by omega, hshift i⟩

lemma nonceAt_cast (round g i : ℕ) :
    ((g + u32 (round * (numThreads * 8)) : ℕ) : GoldilocksField) + i * (numThreads : ℕ) =
      (nonceAt round g i : ℕ) := by
  rw [nonceAt]
  push_cast
  ring

lemma triesInOrder (response : (Fin 12 → GoldilocksField) → ℕ) (input : PowInputs)
    (schedule : ℕ → PowSchedule) : TriesInOrder response input schedule := by
  intro round g
  obtain ⟨n, hn, htried, hstop, -⟩ := tryNonces_spec
    (accepts response input ((schedule round).initState g)) (numThreads : ℕ)
    ((g + u32 (round * (numThreads * 8)) : ℕ)) (1 <<< 3)
  simp only [nonceAt_cast] at htried hstop
  exact ⟨n, hn, htried, hstop⟩

lemma nonceAt_of_place {round g i : ℕ} (h : NoncePlace round g i) :
    nonceAt round g i = round * 65536 + g + 8192 * i := by
  obtain ⟨hround, hg, hi⟩ := h
  have hoffset : u32 (round * (numThreads * 8)) = round * 65536 := by
    rw [numThreads, u32_of_lt (by omega)]
  rw [nonceAt, hoffset, numThreads]

theorem noncesCover : NoncesCover := by
  constructor
  · intro v hv
    have hplace : NoncePlace (v / 65536) (v % 8192) (v % 65536 / 8192) := by
      refine ⟨by omega, ?_, by omega⟩
      rw [numThreads]
      omega
    refine ⟨_, _, _, hplace, ?_⟩
    rw [nonceAt_of_place hplace]
    omega
  · intro round g i round' g' i' h h' heq
    rw [nonceAt_of_place h, nonceAt_of_place h'] at heq
    obtain ⟨hround, hg, hi⟩ := h
    obtain ⟨hround', hg', hi'⟩ := h'
    rw [numThreads] at hg hg'
    have hval := congrArg ZMod.val heq
    rw [ZMod.val_cast_of_lt (by rw [goldilocksOrder]; omega),
      ZMod.val_cast_of_lt (by rw [goldilocksOrder]; omega)] at hval
    omega

/-! ### The response -/

section Response

variable {permute : (Fin 12 → GoldilocksField) → Fin 12 → GoldilocksField}
variable {c : Challenger GoldilocksField} {g : ChallengerGpu GoldilocksField}

/-- The verifier's response is the last squeezed lane of the state that the kernel permutes. -/
lemma powResponse_eq (hvalid : c.Valid) (hfollows : g.Follows c) (proofOfWorkBits : ℕ)
    (nonce : GoldilocksField) :
    powResponse permute c nonce =
      permute (setNonce (PowInputs.ofChallenger g proofOfWorkBits).initState g.inIdx nonce) 7 := by
  have hlt := hvalid.input_lt
  have hlen := hfollows.inIdx_eq
  have hstate : overwrite c.spongeState (c.inputBuffer ++ [nonce]).length
      ((c.inputBuffer ++ [nonce]).getD · 0) =
        setNonce (PowInputs.ofChallenger g proofOfWorkBits).initState g.inIdx nonce := by
    funext j
    simp only [overwrite, setNonce, PowInputs.initState, PowInputs.ofChallenger, hfollows.sponge,
      List.length_append, List.length_singleton, hlen]
    rcases lt_trichotomy (j : ℕ) c.inputBuffer.length with hj | hj | hj
    · have hinput : c.inputBuffer.getD j 0 = g.inputBuffer j := by
        rw [hfollows.input]
        exact getD_map_range (hlen ▸ hj) g.inputBuffer
      rw [if_pos (by omega), if_neg (by omega), if_pos hj, List.getD_append _ _ _ _ hj, hinput]
    · rw [if_pos (by omega), if_pos hj, List.getD_append_right _ _ _ _ (by omega), hj]
      simp
    · rw [if_neg (by omega), if_neg (by omega), if_neg (by omega)]
  rw [← hstate]
  unfold powResponse Challenger.observeElement Challenger.getChallenge
  dsimp only
  split_ifs with hfull hsqueeze hsqueeze
  · simp [Challenger.duplexing, rate] at hsqueeze
  · simp [Challenger.duplexing, rate, List.range_succ, lane]
  · simp [Challenger.duplexing, rate, List.range_succ, lane]
  · simp at hsqueeze

end Response

lemma minLeadingZeros_eq (proofOfWorkBits : ℕ) : minLeadingZeros proofOfWorkBits = proofOfWorkBits := by
  have hsize : goldilocksOrder.size = 64 := by decide
  rw [minLeadingZeros, hsize, Nat.sub_self, add_zero]

section Accepts

variable {permute : (Fin 12 → GoldilocksField) → Fin 12 → GoldilocksField}
variable {response : (Fin 12 → GoldilocksField) → ℕ} {input : PowInputs}

lemma PowInputs.shift_eq (hbits : input.minLeadingZeros ≤ 63) :
    input.shift = 63 - input.minLeadingZeros := by
  rw [shift, u32_of_lt (x := input.minLeadingZeros) (by omega), u32]
  omega

/-- A response that passes the kernel's comparison is canonical and has one leading zero more than
asked for. -/
lemma leadingZeros_of_accepts {initState : Fin 12 → GoldilocksField} {nonce : GoldilocksField}
    (hresponse : ∀ state, (response state : GoldilocksField) = permute state 7)
    (hbits : input.minLeadingZeros ≤ 63)
    (h : accepts response input initState nonce = true) :
    input.minLeadingZeros + 1 ≤
      leadingZeros (permute (setNonce initState input.inIdx nonce) 7).val := by
  rw [accepts, decide_eq_true_eq, PowInputs.shift_eq hbits, Nat.shiftRight_eq_div_pow,
    Nat.div_eq_zero_iff_lt (by positivity)] at h
  have horder : 2 ^ (63 - input.minLeadingZeros) ≤ goldilocksOrder :=
    (Nat.pow_le_pow_right (by norm_num) (Nat.sub_le 63 _)).trans (by rw [goldilocksOrder]; norm_num)
  rw [← hresponse, ZMod.val_cast_of_lt (h.trans_le horder), leadingZeros]
  have hsize := Nat.size_le.mpr h
  omega

end Accepts

/-! ### Launches and runs -/

section Runs

variable {response : (Fin 12 → GoldilocksField) → ℕ} {input : PowInputs}
variable {schedule : ℕ → PowSchedule}

/-- A nonce of the first rounds that passes. -/
def Tried (response : (Fin 12 → GoldilocksField) → ℕ) (input : PowInputs) (rounds : ℕ)
    (nonce : GoldilocksField) : Prop :=
  accepts response input input.initState nonce = true ∧
    ∃ round < rounds, ∃ g < numThreads, ∃ i < 8, nonce = nonceAt round g i

lemma Tried.mono {rounds : ℕ} {nonce : GoldilocksField} (h : Tried response input rounds nonce) :
    Tried response input (rounds + 1) nonce := by
  obtain ⟨haccepts, round, hround, h⟩ := h
  exact ⟨haccepts, round, by omega, h⟩

/-- Every flag that is set stands beside a nonce of the first rounds that passes. -/
def StoredTried (response : (Fin 12 → GoldilocksField) → ℕ) (input : PowInputs) (rounds : ℕ)
    (mem : PowBuffers) : Prop :=
  ∀ g < numThreads, mem.foundBuf g = 1 → Tried response input rounds (mem.buf g)

lemma tried_threadNonces {s : PowSchedule} (hordered : s.Ordered input) {round g : ℕ}
    (hg : g < numThreads) {nonce : GoldilocksField}
    (h : (threadNonces response input s (u32 (round * (numThreads * 8))) g).2 = some nonce) :
    Tried response input (round + 1) nonce := by
  obtain ⟨_, -, -, -, hfound⟩ := tryNonces_spec (accepts response input (s.initState g))
    (numThreads : ℕ) ((g + u32 (round * (numThreads * 8)) : ℕ)) (1 <<< 3)
  obtain ⟨haccepts, i, hi, heq⟩ := hfound nonce h
  rw [hordered.1 g hg] at haccepts
  exact ⟨haccepts, round, by omega, g, hg, i, hi, heq.trans (nonceAt_cast round g i)⟩

/-- Every thread finds its own flag beside its nonce. -/
lemma StoredTried.storeNonces {s : PowSchedule} (hordered : s.Ordered input) {round : ℕ}
    {mem : PowBuffers} (h : StoredTried response input round mem) :
    StoredTried response input (round + 1)
      (storeNonces response input s (u32 (round * (numThreads * 8))) mem) := by
  intro g hg hflag
  simp only [Fri.storeNonces, hg, if_true, true_and] at hflag ⊢
  cases hnonce : (threadNonces response input s (u32 (round * (numThreads * 8))) g).2 with
  | none =>
    rw [hnonce, Option.isSome_none, if_neg Bool.false_ne_true] at hflag
    exact (h g hg hflag).mono
  | some nonce => exact tried_threadNonces hordered hg hnonce

/-- What the scan reads at a set flag is a nonce that passes. -/
lemma StoredTried.scanned {s : PowSchedule} (hordered : s.Ordered input) {round : ℕ}
    {mem : PowBuffers} (h : StoredTried response input round mem) {g : ℕ} (hg : g < numThreads)
    {stored : PowBuffers}
    (hstored : stored = Fri.storeNonces response input s (u32 (round * (numThreads * 8))) mem)
    (hflag : (if g = 0 ∨ s.flagSeen g then stored.foundBuf g else mem.foundBuf g) = 1) :
    Tried response input (round + 1)
      (if g = 0 ∨ s.nonceSeen g then stored.buf g else mem.buf g) := by
  have hafter := h.storeNonces hordered
  rw [← hstored] at hafter
  by_cases hseen : g = 0 ∨ s.flagSeen g
  · rw [if_pos hseen] at hflag
    rw [if_pos (hseen.imp_right (hordered.2 g hg))]
    exact hafter g hg hflag
  · -- the flag is an old one: so is the nonce, or it was replaced in this round
    rw [if_neg hseen] at hflag
    split_ifs
    · subst hstored
      simp only [Fri.storeNonces, hg, if_true]
      cases hnonce : (threadNonces response input s (u32 (round * (numThreads * 8))) g).2 with
      | none => exact (h g hg hflag).mono
      | some nonce => exact tried_threadNonces hordered hg hnonce
    · exact (h g hg hflag).mono

/-- A launch that reports a nonce reports one that passes. -/
lemma StoredTried.friPowNew {s : PowSchedule} (hordered : s.Ordered input) {round : ℕ}
    {mem mem' : PowBuffers} (h : StoredTried response input round mem)
    (hlaunch : friPowNew response input s (u32 (round * (numThreads * 8))) mem = some mem') :
    StoredTried response input (round + 1) mem' ∧
      (mem'.found = 1 → mem.found = 1 ∨ Tried response input (round + 1) mem'.witness) := by
  simp only [Fri.friPowNew] at hlaunch
  split_ifs at hlaunch with hshift
  have hafter := h.storeNonces hordered
  cases hscan : (List.range numThreads).find? fun i => decide
      ((if i = 0 ∨ s.flagSeen i then
          (Fri.storeNonces response input s (u32 (round * (numThreads * 8))) mem).foundBuf i
        else mem.foundBuf i) = 1) with
  | none =>
    simp only [hscan, Option.some.injEq] at hlaunch
    subst hlaunch
    exact ⟨hafter, .inl⟩
  | some g =>
    simp only [hscan, Option.some.injEq] at hlaunch
    subst hlaunch
    have hg : g < numThreads := List.mem_range.mp (List.mem_of_find?_eq_some hscan)
    have hflag := List.find?_some hscan
    rw [decide_eq_true_eq] at hflag
    exact ⟨hafter, fun _ => .inr (h.scanned hordered hg rfl hflag)⟩

lemma u32_offset (round : ℕ) :
    u32 (u32 (round * (numThreads * 8)) + numThreads * 8) = u32 ((round + 1) * (numThreads * 8)) := by
  simp only [u32]
  rw [Nat.mod_add_mod, Nat.succ_mul]

/-- The host leaves its loop with a nonce that passes. -/
lemma StoredTried.compute (hordered : ∀ round, (schedule round).Ordered input) {fuel round : ℕ}
    {mem mem' : PowBuffers} (h : StoredTried response input round mem) (hfound : mem.found ≠ 1)
    (hrun : compute response input schedule fuel round (u32 (round * (numThreads * 8))) mem =
      some mem') : Tried response input (round + fuel) mem'.witness := by
  induction fuel generalizing round mem with
  | zero => cases hrun
  | succ fuel ih =>
    rw [Fri.compute, Option.bind_eq_bind, Option.bind_eq_some_iff] at hrun
    obtain ⟨next, hlaunch, hrest⟩ := hrun
    obtain ⟨hstored, hreport⟩ := h.friPowNew (hordered round) hlaunch
    split_ifs at hrest with hone
    · cases hrest
      obtain ⟨haccepts, r, hr, hplace⟩ := (hreport hone).resolve_left hfound
      exact ⟨haccepts, r, by omega, hplace⟩
    · rw [u32_offset] at hrest
      have htried := ih hstored hone hrest
      rwa [Nat.succ_add_eq_add_succ] at htried

end Runs

section Search

variable {permute : (Fin 12 → GoldilocksField) → Fin 12 → GoldilocksField}
variable {response : (Fin 12 → GoldilocksField) → ℕ}
variable {c : Challenger GoldilocksField} {g : ChallengerGpu GoldilocksField}
variable {proofOfWorkBits : ℕ} {schedule : ℕ → PowSchedule} {mem : PowBuffers}

/-- With the report cleared and no flag left over from an earlier search, at most 63 bits, and
launches that load and publish in order, every witness meets the verifier's demand, and the rounds
try every 32-bit nonce once. -/
theorem search_of_ordered (hvalid : c.Valid) (hfollows : g.Follows c)
    (hresponse : ∀ state, (response state : GoldilocksField) = permute state 7)
    (hfound : mem.found = 0) (hcleared : ∀ i < numThreads, mem.foundBuf i ≠ 1)
    (hbits : proofOfWorkBits ≤ 63)
    (hordered : ∀ round, (schedule round).Ordered (.ofChallenger g proofOfWorkBits)) :
    ReturnsWitness permute response c (.ofChallenger g proofOfWorkBits) proofOfWorkBits schedule
        mem ∧
      TriesInOrder response (.ofChallenger g proofOfWorkBits) schedule ∧ NoncesCover := by
  refine ⟨?_, triesInOrder _ _ _, noncesCover⟩
  intro fuel mem' hrun
  have hstored : StoredTried response (.ofChallenger g proofOfWorkBits) 0 mem := by
    intro i hi hflag
    exact absurd hflag (hcleared i hi)
  have hzero : u32 (0 * (numThreads * 8)) = 0 := by rw [Nat.zero_mul, u32_of_lt (by norm_num)]
  obtain ⟨haccepts, round, hround, hplace⟩ :=
    hstored.compute hordered (by rw [hfound]; norm_num) (hzero.symm ▸ hrun)
  refine ⟨?_, round, by omega, hplace⟩
  have hdemand : (PowInputs.ofChallenger g proofOfWorkBits).minLeadingZeros = proofOfWorkBits :=
    minLeadingZeros_eq proofOfWorkBits
  have hzeros := leadingZeros_of_accepts hresponse (hdemand.trans_le hbits) haccepts
  rw [hdemand] at hzeros
  rw [powResponse_eq hvalid hfollows proofOfWorkBits, minLeadingZeros_eq]
  exact (Nat.le_succ _).trans hzeros

end Search

/-! ### Searches with the host's permutation -/

/-- The host's permutation and the word of the lane that the kernel compares. -/
def hostResponse (state : Fin 12 → GoldilocksField) : ℕ :=
  (Poseidon.poseidon Poseidon.hostRoundConstants state 7).val

/-- The search of a new challenger for `16` bits. -/
def newInput : PowInputs := .ofChallenger .new 16

/-- Launches in which every thread loads the filled state and every store is seen at once. -/
def atOnce (input : PowInputs) : ℕ → PowSchedule :=
  fun _ => ⟨fun _ => input.initState, fun _ => true, fun _ => true⟩

lemma ordered_atOnce (input : PowInputs) (round : ℕ) : (atOnce input round).Ordered input :=
  ⟨fun _ _ => rfl, fun _ _ h => h⟩

/-- Buffers whose first flag is left over from an earlier search with the nonce `0`. -/
def leftOver : PowBuffers := ⟨0, 0, fun i => if i = 0 then 1 else 0, fun _ => 0⟩

/-- Cleared buffers. -/
def clearedBuffers : PowBuffers := ⟨0, 0, fun _ => 0, fun _ => 0⟩

/-- A search for 16 bits in cleared buffers. -/
theorem search_cleared :
    ReturnsWitness (Poseidon.poseidon Poseidon.hostRoundConstants) hostResponse .new newInput 16
        (atOnce newInput) clearedBuffers ∧
      TriesInOrder hostResponse newInput (atOnce newInput) ∧ NoncesCover :=
  search_of_ordered Challenger.valid_new ChallengerGpu.follows_new
    (fun state => ZMod.natCast_zmod_val _) rfl (by simp [clearedBuffers]) (by norm_num)
    (ordered_atOnce newInput)

lemma setNonce_new (nonce : ℕ) :
    setNonce newInput.initState newInput.inIdx nonce =
      Poseidon.ofWords (nonce :: List.replicate 11 0) := by
  funext j
  refine Fin.cases rfl (fun j => ?_) j
  rw [setNonce, if_neg (by simp [newInput, PowInputs.ofChallenger, ChallengerGpu.new])]
  have hzero : Poseidon.ofWords (nonce :: List.replicate 11 0) j.succ = 0 := by
    change (((List.replicate 11 0).getD (j : ℕ) 0 : ℕ) : GoldilocksField) = 0
    rw [List.getD_eq_getElem _ _ (by simp), List.getElem_replicate, Nat.cast_zero]
  rw [hzero]
  simp [newInput, PowInputs.ofChallenger, PowInputs.initState, ChallengerGpu.new, overwrite]

lemma hostResponse_new (nonce : ℕ) :
    hostResponse (setNonce newInput.initState newInput.inIdx nonce) =
      (Poseidon.poseidonWords (nonce :: List.replicate 11 0)).getD 7 0 % goldilocksOrder := by
  rw [setNonce_new, hostResponse, ← Poseidon.ofWords_poseidonWords]
  exact ZMod.val_natCast _ _

/-- The first thread's nonces of the first round do not pass. -/
lemma not_accepts_new : ∀ i < 8,
    ((Poseidon.poseidonWords (8192 * i :: List.replicate 11 0)).getD 7 0 % goldilocksOrder) >>> 47 ≠
      0 := by
  decide +kernel

lemma find?_range_of_zero {n : ℕ} {p : ℕ → Bool} (hn : 0 < n) (hp : p 0 = true) :
    (List.range n).find? p = some 0 := by
  obtain ⟨k, rfl⟩ := Nat.exists_eq_succ_of_ne_zero hn.ne'
  rw [List.range_succ_eq_map, List.find?_cons_of_pos hp]

/-- The flag of an earlier search makes the host return its nonce, whose response has three leading
zeros of sixteen. -/
theorem not_search_leftOver : leftOver.found = 0 ∧
    ¬ (ReturnsWitness (Poseidon.poseidon Poseidon.hostRoundConstants) hostResponse .new newInput 16
        (atOnce newInput) leftOver ∧
      TriesInOrder hostResponse newInput (atOnce newInput) ∧ NoncesCover) := by
  refine ⟨rfl, ?_⟩
  rintro ⟨hreturns, -⟩
  have hzero : u32 (0 * (numThreads * 8)) = 0 := by rw [Nat.zero_mul, u32_of_lt (by norm_num)]
  have hshift : newInput.shift = 47 := PowInputs.shift_eq (by decide)
  have hnone : (threadNonces hostResponse newInput (atOnce newInput 0) 0 0).2 = none := by
    cases hnonce : (threadNonces hostResponse newInput (atOnce newInput 0) 0 0).2 with
    | none => rfl
    | some nonce =>
      rw [← hzero] at hnonce
      obtain ⟨_, -, -, -, hfound⟩ := tryNonces_spec
        (accepts hostResponse newInput ((atOnce newInput 0).initState 0)) (numThreads : ℕ)
        ((0 + u32 (0 * (numThreads * 8)) : ℕ)) (1 <<< 3)
      obtain ⟨haccepts, i, hi, rfl⟩ := hfound nonce hnonce
      have hplace : nonceAt 0 0 i = 8192 * i := by
        rw [nonceAt, hzero, numThreads]
        omega
      rw [nonceAt_cast, hplace, accepts, decide_eq_true_eq, hshift] at haccepts
      change hostResponse (setNonce newInput.initState newInput.inIdx _) >>> 47 = 0 at haccepts
      rw [hostResponse_new] at haccepts
      exact absurd haccepts (not_accepts_new i hi)
  obtain ⟨mem', hrun, hwitness⟩ : ∃ mem', compute hostResponse newInput (atOnce newInput) 1 0 0
      leftOver = some mem' ∧ mem'.witness = 0 := by
    have hscan : (List.range numThreads).find? (fun i => decide
        ((if i = 0 ∨ (atOnce newInput 0).flagSeen i then
            (storeNonces hostResponse newInput (atOnce newInput 0) 0 leftOver).foundBuf i
          else leftOver.foundBuf i) = 1)) = some 0 := by
      apply find?_range_of_zero (by norm_num [numThreads])
      simp [storeNonces, hnone, leftOver]
    have hlaunch : ∃ mem', friPowNew hostResponse newInput (atOnce newInput 0) 0 leftOver =
        some mem' ∧ mem'.found = 1 ∧ mem'.witness = 0 := by
      simp only [friPowNew, hshift, hscan]
      exact ⟨_, rfl, rfl, by simp [storeNonces, hnone, leftOver]⟩
    obtain ⟨mem', hlaunch, hone, hwitness⟩ := hlaunch
    exact ⟨mem', by simp [compute, hlaunch, hone], hwitness⟩
  obtain ⟨hzeros, -⟩ := hreturns 1 mem' hrun
  rw [powResponse_eq Challenger.valid_new ChallengerGpu.follows_new 16, hwitness] at hzeros
  change minLeadingZeros 16 ≤ leadingZeros
    (hostResponse (setNonce newInput.initState newInput.inIdx (0 : ℕ))) at hzeros
  rw [hostResponse_new] at hzeros
  revert hzeros
  decide +kernel

end MegaZK.Fri
