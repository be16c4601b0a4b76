import MegaZK.Transcript.Basic

/-! # The device transcript against `get_challenges`

The stages of the orchestrator keep the device challenger in step with the host challenger that
replays the assembled proof, as long as the absorbed buffers have a length below `2 ^ 32`. -/

namespace MegaZK

open Relational

variable {F : Type} [Zero F] {permute : (Fin 12 → F) → Fin 12 → F}

/-! ### Host observations in groups -/

namespace Host

lemma observe_append (xs ys : List F) :
    (do observe permute xs; observe permute ys) = observe permute (xs ++ ys) := by
  funext s
  simp only [observe, Challenger.observeElements_append, List.map_append, ← List.append_assoc]
  rfl

lemma observe_nil : observe permute ([] : List F) = pure () := by
  funext s
  simp only [observe, Challenger.observeElements_nil, List.map_nil, List.append_nil]
  rfl

lemma observeAll_eq (xss : List (List F)) :
    observeAll permute xss = observe permute xss.flatten := by
  induction xss with
  | nil => rw [List.flatten_nil, observe_nil]; rfl
  | cons xs xss ih => rw [List.flatten_cons, ← observe_append, ← ih]; rfl

lemma observeOpenings_eq (batches : List (List (F × F))) :
    observeOpenings permute batches = observe permute (basefield batches.flatten).flatten := by
  induction batches with
  | nil => simp only [List.flatten_nil, basefield, List.map_nil, observe_nil]; rfl
  | cons batch batches ih =>
    have hsplit : (basefield (batch :: batches).flatten).flatten =
        (basefield batch).flatten ++ (basefield batches.flatten).flatten := by
      simp [basefield]
    rw [hsplit, ← observe_append, ← ih, ← observeAll_eq]
    rfl

end Host

/-! ### One step of the transcript -/

/-- The challengers are in step, with the host indices `i` and `o` of the device side. -/
structure InStep (i o : ℕ) (s : Challenger F × List (Event F))
    (t : ChallengerGpu F × List (Event F)) : Prop where
  follows : ChallengerGpu.Follows s.1 t.1
  log : s.2 = t.2
  inIdx : t.1.inIdx = i
  outIdx : t.1.outIdx = o

/-- The second index after an observation of a buffer of length `len`. -/
def nextOut (i o len : ℕ) : ℕ := if u32 ((i + len) % 8 + u32 len) ≥ 8 then 8 else o

/-- The second index after squeezing `n` elements. -/
def leftOut (i o n : ℕ) : ℕ := if i ≠ 0 then (8 - n % 8) % 8 else (o + 8 - n % 8) % 8

lemma triple_observe (permute : (Fin 12 → F) → Fin 12 → F) (i : ℕ) {o : ℕ}
    (elts : DeviceBuffer F) {num offset : ℕ} (ho : o ≤ 8)
    (hpos : 0 < num) (hnum : num < 2 ^ 32) (hend : offset + num ≤ 2 ^ 32)
    (hlen : elts.len % 8 = num % 8) (hout : (i + num) % 8 = 0 → nextOut i o elts.len = 8) :
    Triple (InStep i o) (Host.observe permute (elts.slice num offset))
      (Device.observe permute elts num offset)
      (InStep ((i + elts.len) % 8) (nextOut i o elts.len)) := by
  rintro ⟨c, log⟩ ⟨g, log'⟩ ⟨hfollows, rfl, rfl, rfl⟩
  refine ⟨rfl, ?_⟩
  obtain ⟨hsponge, hinput, -, -, hzero⟩ := hfollows.observe permute elts hnum hend
  have hin : (g.observeElementsGpu permute elts num offset).inIdx = (g.inIdx + num) % 8 := by
    rw [ChallengerGpu.inIdx_observe]
    omega
  have hout' : (g.observeElementsGpu permute elts num offset).outIdx =
      nextOut g.inIdx g.outIdx elts.len := by
    rw [nextOut, ← ChallengerGpu.u32_add_mod_eight]
    rfl
  have hslice : elts.slice num offset =
      (List.range (u32 num)).map fun i => elts.cell (u32 (i + u32 offset)) := by
    rw [u32_of_lt hnum]
    apply List.map_congr_left
    intro j hj
    have hj := List.mem_range.mp hj
    rw [u32_of_lt (x := offset) (by omega), u32_of_lt (by omega), Nat.add_comm]
  refine ⟨⟨hsponge, ?_, ?_, ?_, ?_⟩, ?_,
    ChallengerGpu.inIdx_observe permute g elts num offset, hout'⟩
  · rw [← hin] at hinput
    exact hinput
  · change (g.observeElementsGpu permute elts num offset).inIdx < 8
    omega
  · change (g.observeElementsGpu permute elts num offset).outIdx ≤ 8
    rw [hout', nextOut]
    split_ifs <;> omega
  · intro hin0
    have hb : (g.inIdx + num) % 8 = 0 := hin.symm.trans hin0
    have h8 : (g.observeElementsGpu permute elts num offset).outIdx = 8 := by
      rw [hout', hout hb]
    change (c.observeElements permute (elts.slice num offset)).outputBuffer =
      (List.range (g.observeElementsGpu permute elts num offset).outIdx).map
        (g.observeElementsGpu permute elts num offset).outputBuffer
    rw [h8]
    exact hzero hpos hb
  · change log ++ (elts.slice num offset).map Event.absorbed = _
    rw [hslice]
    rfl

/-- Observing a buffer from its start. -/
lemma triple_observe_start (permute : (Fin 12 → F) → Fin 12 → F) (i : ℕ) {o : ℕ} (len : ℕ)
    (cell : ℕ → F) {num : ℕ} (ho : o ≤ 8) (hpos : 0 < num) (hnum : num < 2 ^ 32)
    (hlen : len % 8 = num % 8) (hout : (i + num) % 8 = 0 → nextOut i o len = 8) :
    Triple (InStep i o) (Host.observe permute ((List.range num).map cell))
      (Device.observe permute ⟨len, cell⟩ num 0) (InStep ((i + len) % 8) (nextOut i o len)) := by
  have hslice : (⟨len, cell⟩ : DeviceBuffer F).slice num 0 = (List.range num).map cell := by
    simp [DeviceBuffer.slice]
  rw [← hslice]
  exact triple_observe permute i ⟨len, cell⟩ ho hpos hnum (by omega) hlen hout

lemma triple_sample (i o : ℕ) {n : ℕ} (hpos : 1 ≤ n) (hn : n < 2 ^ 32) :
    Triple (InStep (F := F) i o) (Host.sample permute n) (Device.sampleInto permute n)
      (InStep 0 (leftOut i o n)) := by
  rintro ⟨c, log⟩ ⟨g, log'⟩ ⟨hfollows, rfl, rfl, rfl⟩
  obtain ⟨hxs, hfollows', -⟩ := hfollows.get permute hpos hn
  refine ⟨hxs.symm, hfollows', ?_, rfl, ?_⟩
  · change log ++ ((c.getNChallenges permute n).1).map Event.squeezed =
      log ++ ((g.getNChallengesGpu permute n).1).map Event.squeezed
    rw [hxs]
  · change (g.getNChallengesGpu permute n).2.outIdx = _
    simp only [ChallengerGpu.getNChallengesGpu, u32_of_lt hn, leftOut]

/-- The last elements squeezed; there may be none. -/
lemma triple_sample_last (i o : ℕ) {n : ℕ} (hn : n < 2 ^ 32) :
    Triple (InStep (F := F) i o) (Host.sample permute n) (Device.sampleInto permute n)
      (fun s t => s.2 = t.2) := by
  rcases Nat.eq_zero_or_pos n with rfl | hpos
  · rintro ⟨c, log⟩ ⟨g, log'⟩ ⟨-, rfl, -, -⟩
    have hget : (g.getNChallengesGpu permute 0).1 = [] := rfl
    exact ⟨hget.symm, by
      change log ++ [] = log ++ ((g.getNChallengesGpu permute 0).1).map Event.squeezed
      rw [hget]
      rfl⟩
  · exact (triple_sample i o hpos hn).post (fun _ _ h => h.log)

/-! ### Caps, openings and coefficients -/

omit [Zero F] in
lemma flatten_map_range_quads (f : ℕ → F) (m : ℕ) :
    ((List.range m).map fun i => [f (4 * i), f (4 * i + 1), f (4 * i + 2), f (4 * i + 3)]).flatten =
      (List.range (4 * m)).map f := by
  induction m with
  | zero => rfl
  | succ m ih =>
    rw [List.range_succ, List.map_append, List.flatten_append, ih, Nat.mul_succ,
      List.range_add, List.map_append]
    simp [List.range_succ]

omit [Zero F] in
lemma flatten_map_range_pairs (f : ℕ → F) (m : ℕ) :
    ((List.range m).map fun i => [f (2 * i), f (2 * i + 1)]).flatten =
      (List.range (2 * m)).map f := by
  induction m with
  | zero => rfl
  | succ m ih =>
    rw [List.range_succ, List.map_append, List.flatten_append, ih, Nat.mul_succ,
      List.range_add, List.map_append]
    simp [List.range_succ]

lemma capLen_eq (capHeight : ℕ) : capLen capHeight = 4 * 2 ^ capHeight := by
  rw [capLen, Nat.shiftLeft_eq]

omit [Zero F] in
/-- The assembled cap holds the elements the observation absorbs. -/
lemma flatten_assembleCap {tree : DeviceBuffer F} {capHeight : ℕ}
    (hend : capOffset tree.len capHeight + capLen capHeight ≤ 2 ^ 32) :
    (assembleCap tree capHeight).flatten =
      tree.slice (capLen capHeight) (capOffset tree.len capHeight) := by
  refine (flatten_map_range_quads
    (fun j => tree.cell (u32 (u32 (capOffset tree.len capHeight) + j))) _).trans ?_
  rw [capLen_eq] at hend ⊢
  rw [Nat.mul_div_cancel_left _ (by omega)]
  apply List.map_congr_left
  intro j hj
  have hj := List.mem_range.mp hj
  have := Nat.two_pow_pos capHeight
  rw [u32_of_lt (x := capOffset tree.len capHeight) (by omega), u32_of_lt (by omega)]

/-- Absorbing the cap of a tree whose length is a power of two below `2 ^ 32`. -/
lemma triple_cap {o k : ℕ} (ho : o ≤ 8) {tree : DeviceBuffer F} {capHeight : ℕ}
    (hcap : 1 ≤ capHeight) (htree : tree.len = 2 ^ k) (hk : capHeight + 3 ≤ k) (hk32 : k < 32) :
    Triple (InStep 0 o) (Host.observeAll permute (assembleCap tree capHeight))
      (Device.observeCap permute tree capHeight) (InStep 0 8) := by
  have hpow : 2 ^ (capHeight + 3) ≤ 2 ^ k := Nat.pow_le_pow_right (by omega) hk
  have hlt : 2 ^ k < 2 ^ 32 := Nat.pow_lt_pow_right (by omega) hk32
  have h8 : 2 ^ k % 8 = 0 := by
    obtain ⟨m, rfl⟩ := Nat.exists_eq_add_of_le' (show 3 ≤ k by omega)
    rw [pow_add]
    omega
  obtain ⟨m, rfl⟩ := Nat.exists_eq_add_of_le' hcap
  have hm : 2 ^ (m + 1 + 3) = 16 * 2 ^ m := by ring
  have hm' : 2 ^ (m + 1) = 2 * 2 ^ m := by ring
  have hmpos := Nat.two_pow_pos m
  have hoff : capOffset tree.len (m + 1) + capLen (m + 1) ≤ 2 ^ 32 := by
    rw [capOffset, Nat.shiftLeft_eq, capLen_eq, htree]
    omega
  have hnum : capLen (m + 1) % 8 = 0 := by
    rw [capLen_eq]
    omega
  have hsmall : capLen (m + 1) < 2 ^ 32 := by
    rw [capLen_eq]
    omega
  have hpos : 0 < capLen (m + 1) := by
    rw [capLen_eq]
    omega
  have hin : (0 + tree.len) % 8 = 0 := by rw [htree, Nat.zero_add, h8]
  have hout : nextOut 0 o tree.len = 8 := by
    rw [nextOut, hin, htree, u32_of_lt (x := 2 ^ k) hlt, Nat.zero_add, u32_of_lt hlt, if_pos]
    omega
  have hstep := triple_observe permute 0 tree ho hpos hsmall hoff
    (by rw [htree, h8, hnum]) (fun _ => hout)
  rw [hin, hout] at hstep
  rw [Host.observeAll_eq, flatten_assembleCap hoff]
  exact hstep

/-- The loop over the FRI rounds. -/
lemma triple_friRounds {capHeight : ℕ} (hcap : 1 ≤ capHeight) (trees : List (DeviceBuffer F))
    (htrees : ∀ tree ∈ trees, ∃ k, tree.len = 2 ^ k ∧ capHeight + 3 ≤ k ∧ k < 32) :
    Triple (InStep 0 6) (Host.friBetas permute (trees.map (assembleCap · capHeight)))
      (Device.friRounds permute capHeight trees) (InStep 0 6) := by
  induction trees with
  | nil => exact Triple.pure _
  | cons tree trees ih =>
    obtain ⟨k, htree, hk, hk32⟩ := htrees tree (by simp)
    refine Triple.bind (triple_cap (by omega) hcap htree hk hk32) fun _ => ?_
    refine Triple.bind (triple_sample 0 8 (by decide) (by decide)) fun beta => ?_
    refine Triple.bind (ih (fun tree' htree' => htrees tree' (by simp [htree']))) fun betas => ?_
    exact Triple.pure _

omit [Zero F] in
lemma flatten_toFriOpenings {sh : CircuitShape} {b : ProveBuffers F} {o : OpeningSet F}
    (h : getOpeningSet sh.counts sh.assemblyConfig ⟨sh.openingsLen, b.openings⟩ = some o) :
    o.toFriOpenings.flatten = extensionVec sh.openingsLen b.openings :=
  flatten_of_getOpeningSet rfl h

omit [Zero F] in
lemma flatten_basefield_extensionVec (len : ℕ) (cell : ℕ → F) :
    (basefield (extensionVec len cell)).flatten = (List.range (2 * (len / 2))).map cell := by
  rw [← flatten_map_range_pairs]
  simp [basefield, extensionVec, extensionDegree, Function.comp_def]

/-! ### The hash of the public inputs -/

omit [Zero F] in
lemma rateChunk_map_range (f : ℕ → F) (n i : ℕ) :
    rateChunk ((List.range n).map f) i =
      (List.range (min 8 (n - 8 * i))).map fun j => f (j + 8 * i) := by
  apply List.ext_getElem
  · simp [rateChunk, rate]
  · intro j _ _
    simp [rateChunk, rate, Nat.add_comm]

/-- Overwriting with a chunk of a mapped range. -/
lemma overwrite_rateChunk (st : Fin 12 → F) (f : ℕ → F) {n i m : ℕ}
    (hm : min 8 (n - 8 * i) = m) :
    overwrite st (rateChunk ((List.range n).map f) i).length
        ((rateChunk ((List.range n).map f) i).getD · 0) =
      overwrite st m fun j => f (j + 8 * i) := by
  rw [rateChunk_map_range, hm, List.length_map, List.length_range]
  exact overwrite_congr _ (fun j hj => getD_map_range hj _)

/-- Full blocks first, then the partial block if there is one. -/
lemma absorbChunks_map_range (f : ℕ → F) (n : ℕ) :
    absorbChunks permute ((List.range n).map f) =
      let st := (List.range (n / 8)).foldl
        (fun st i => permute (overwrite st 8 fun j => f (j + 8 * i))) (fun _ => 0)
      if n % 8 ≠ 0 then permute (overwrite st (n % 8) fun j => f (j + 8 * (n / 8))) else st := by
  have hfull : (List.range (n / 8)).foldl
        (fun st i => permute (overwrite st (rateChunk ((List.range n).map f) i).length
          ((rateChunk ((List.range n).map f) i).getD · 0))) (fun _ => (0 : F)) =
      (List.range (n / 8)).foldl
        (fun st i => permute (overwrite st 8 fun j => f (j + 8 * i))) (fun _ => 0) := by
    apply List.foldl_ext
    intro st i hi
    have hi := List.mem_range.mp hi
    rw [overwrite_rateChunk (m := 8) st f (by omega)]
  unfold absorbChunks
  rw [List.length_map, List.length_range, rate]
  by_cases hr : n % 8 ≠ 0
  · have hcount : (n + 7) / 8 = n / 8 + 1 := by omega
    rw [hcount, List.range_succ, List.foldl_append, List.foldl_cons, List.foldl_nil, hfull,
      overwrite_rateChunk (m := n % 8) _ f (by omega)]
    exact (if_pos hr).symm
  · have hcount : (n + 7) / 8 = n / 8 := by omega
    rw [hcount, hfull]
    exact (if_neg hr).symm

lemma hashPi_eq (pi : ℕ → F) {n : ℕ} (hn : n < 2 ^ 32) :
    (List.range 4).map (hashPi permute pi n) =
      hashNoPad permute ((List.range n).map pi) := by
  have hblocks : u32 (n >>> 3) = n / 8 := by
    rw [Nat.shiftRight_eq_div_pow, u32_of_lt (by omega)]
  have hleft : u32 (n - u32 ((n / 8) <<< 3)) = n % 8 := by
    rw [Nat.shiftLeft_eq, u32_of_lt (x := n / 8 * 2 ^ 3) (by omega), u32_of_lt (by omega)]
    omega
  have hloop : (List.range (n / 8)).foldl
        (fun st i => permute (overwrite st 8 fun j => pi (u32 (j + 8 * i)))) (fun _ => (0 : F)) =
      (List.range (n / 8)).foldl
        (fun st i => permute (overwrite st 8 fun j => pi (j + 8 * i))) (fun _ => 0) := by
    apply List.foldl_ext
    intro st i hi
    have hi := List.mem_range.mp hi
    congr 1
    exact overwrite_congr _ (fun j hj => by rw [u32_of_lt (by omega)])
  have hlast : ∀ st : Fin 12 → F,
      overwrite st (n % 8) (fun j => pi (u32 (j + 8 * (n / 8)))) =
        overwrite st (n % 8) (fun j => pi (j + 8 * (n / 8))) := by
    intro st
    exact overwrite_congr _ (fun j hj => by rw [u32_of_lt (by omega)])
  unfold hashNoPad hashPi
  simp only [hblocks, hleft, hloop, hlast, absorbChunks_map_range]

/-! ### The lengths of the FRI buffers -/

lemma two_pow_shiftRight {k a : ℕ} (h : a ≤ k) : 2 ^ k >>> a = 2 ^ (k - a) := by
  rw [Nat.shiftRight_eq_div_pow, Nat.pow_div h (by omega)]

/-- The digests of every round are a power of two, not below what the reductions leave. -/
lemma digestsLen_friCommitPartLensFrom {arities : List ℕ} {k m : ℕ} (hk : arities.sum + m ≤ k)
    (leavesLen : ℕ) :
    ∀ part ∈ friCommitPartLensFrom (2 ^ k) leavesLen arities,
      ∃ k', part.digestsLen = 2 ^ k' ∧ m ≤ k' ∧ k' ≤ k := by
  induction arities generalizing k leavesLen with
  | nil => simp [friCommitPartLensFrom]
  | cons a arities ih =>
    rw [List.sum_cons] at hk
    have ha : a ≤ k := by omega
    intro part hpart
    simp only [friCommitPartLensFrom, two_pow_shiftRight ha, List.mem_cons] at hpart
    rcases hpart with rfl | hpart
    · exact ⟨k - a, rfl, by omega, by omega⟩
    · obtain ⟨k', hlen, hm, hle⟩ := ih (k := k - a) (by omega) _ part hpart
      exact ⟨k', hlen, hm, by omega⟩

lemma foldedLen_friCommitPartLensFrom {arities : List ℕ} (hne : arities ≠ []) {k : ℕ}
    (hk : arities.sum ≤ k) (digestsLen : ℕ) :
    (friCommitPartLensFrom digestsLen (2 ^ k) arities).getLast?.map
      FriCommitPartLens.foldedLen = some (2 ^ (k - arities.sum)) := by
  induction arities generalizing k digestsLen with
  | nil => exact absurd rfl hne
  | cons a arities ih =>
    rw [List.sum_cons] at hk ⊢
    have ha : a ≤ k := by omega
    simp only [friCommitPartLensFrom, two_pow_shiftRight ha]
    cases arities with
    | nil => simp [friCommitPartLensFrom]
    | cons a' arities =>
      have hrec := ih (by simp) (k := k - a) (by omega) (digestsLen >>> a)
      rw [Nat.sub_sub] at hrec
      rw [← hrec]
      simp [friCommitPartLensFrom]

omit [Zero F] in
/-- The coefficients of the final polynomial are a prefix of the last folded buffer. -/
lemma flatten_basefield_take {e r : ℕ} (her : r ≤ e) (cell : ℕ → F) :
    (basefield ((extensionVec (2 ^ (e + 1)) cell).take
        ((2 ^ (e + 1) / extensionDegree) >>> r))).flatten =
      (List.range (2 ^ (e + 1) >>> r)).map cell := by
  have hhalf : 2 ^ (e + 1) / 2 = 2 ^ e := by rw [pow_succ]; omega
  have hle : 2 ^ (e - r) ≤ 2 ^ e := Nat.pow_le_pow_right (by omega) (by omega)
  have hdouble : 2 ^ (e + 1 - r) = 2 * 2 ^ (e - r) := by
    rw [Nat.sub_add_comm her, pow_succ]
    omega
  rw [two_pow_shiftRight (by omega), hdouble, extensionDegree, hhalf, two_pow_shiftRight her]
  rw [extensionVec, ← List.map_take, List.take_range, extensionDegree, hhalf,
    Nat.min_eq_left hle, ← flatten_map_range_pairs]
  simp [basefield, Function.comp_def]

/-- Everything the transcript measures in 32 bits fits: the Merkle trees, which are the longest
buffers, the openings, the public inputs and the number of queries. -/
structure CircuitShape.FitsU32 (sh : CircuitShape) : Prop where
  tree : 8 * 2 ^ (sh.degreeBits + sh.rateBits) < 2 ^ 32
  openings : sh.openingsLen < 2 ^ 32
  publicInputs : sh.numPublicInputs < 2 ^ 32
  queries : sh.numQueryRounds < 2 ^ 32

namespace CircuitShape

variable {sh : CircuitShape}

lemma merkleTreeLen_eq (sh : CircuitShape) : sh.merkleTreeLen = 2 ^ (sh.degreeBits + sh.rateBits + 3) := by
  rw [merkleTreeLen, Nat.shiftLeft_eq]
  ring

lemma FitsU32.bits_lt (h : sh.FitsU32) : sh.degreeBits + sh.rateBits + 3 < 32 := by
  have htree := h.tree
  by_contra hge
  have : 2 ^ 29 ≤ 2 ^ (sh.degreeBits + sh.rateBits) := Nat.pow_le_pow_right (by omega) (by omega)
  omega

lemma finalFoldedLen_eq (hne : sh.reductionArityBits ≠ []) :
    sh.finalFoldedLen =
      2 ^ (sh.degreeBits + sh.rateBits + 1 - sh.reductionArityBits.sum) := by
  have harities := sh.arities_le
  have hlen : (2 ^ sh.degreeBits * extensionDegree) <<< sh.rateBits =
      2 ^ (sh.degreeBits + sh.rateBits + 1) := by
    rw [Nat.shiftLeft_eq, extensionDegree]
    ring
  rw [finalFoldedLen, friCommitPartLens, hlen,
    foldedLen_friCommitPartLensFrom hne (by omega), Option.getD_some]

/-- A final polynomial of at least four extension coefficients leaves two bits. -/
lemma sum_add_two_le (hne : sh.reductionArityBits ≠ []) (hfinal : 4 ≤ sh.finalPolyLen) :
    sh.reductionArityBits.sum + 2 ≤ sh.degreeBits := by
  have harities := sh.arities_le
  rw [finalPolyLen, finalFoldedLen_eq hne, extensionDegree] at hfinal
  by_contra hlt
  have hle : sh.degreeBits + sh.rateBits + 1 - sh.reductionArityBits.sum ≤ sh.rateBits + 2 := by
    omega
  have hpow := Nat.pow_le_pow_right (n := 2) (by omega) hle
  have hsplit : 2 ^ (sh.rateBits + 2) = 2 ^ sh.rateBits * 4 := by ring
  have hpos := Nat.two_pow_pos sh.rateBits
  rw [Nat.shiftRight_eq_div_pow, Nat.le_div_iff_mul_le hpos] at hfinal
  omega

omit [Zero F] in
lemma roundTrees_len (hfits : sh.FitsU32) (b : ProveBuffers F) :
    ∀ tree ∈ Device.roundTrees sh b,
      ∃ k, tree.len = 2 ^ k ∧ sh.capHeight + 3 ≤ k ∧ k < 32 := by
  intro tree htree
  have harities := sh.arities_le
  have hbits := hfits.bits_lt
  obtain ⟨⟨part, i⟩, hpart, rfl⟩ := List.mem_map.mp htree
  have hlen := merkleTreeLen_eq sh
  rw [merkleTreeLen] at hlen
  rw [friCommitPartLens, hlen] at hpart
  obtain ⟨k, hk, hm, hle⟩ := digestsLen_friCommitPartLensFrom (m := sh.capHeight + 3)
    (by omega) _ part (List.fst_mem_of_mem_zipIdx hpart)
  exact ⟨k, hk, hm, by omega⟩

end CircuitShape

/-! ### The whole transcript -/

lemma openingsLen_pos (sh : CircuitShape) : 0 < sh.openingsLen := by
  rw [CircuitShape.openingsLen, extensionDegree, numChallenges]
  omega

lemma triple_openings (permute : (Fin 12 → F) → Fin 12 → F) {sh : CircuitShape}
    (hfits : sh.FitsU32) {b : ProveBuffers F} {o : OpeningSet F}
    (ho : getOpeningSet sh.counts sh.assemblyConfig ⟨sh.openingsLen, b.openings⟩ = some o) :
    Triple (InStep 0 6) (Host.observeOpenings permute o.toFriOpenings)
      (Device.observe permute ⟨sh.openingsLen, b.openings⟩ sh.openingsLen 0)
      (InStep ((0 + sh.openingsLen) % 8) (nextOut 0 6 sh.openingsLen)) := by
  have hpos := openingsLen_pos sh
  have heven : 2 * (sh.openingsLen / 2) = sh.openingsLen := by
    rw [CircuitShape.openingsLen, extensionDegree]
    omega
  rw [Host.observeOpenings_eq, flatten_toFriOpenings ho, flatten_basefield_extensionVec, heven]
  refine triple_observe_start permute 0 sh.openingsLen b.openings (by omega) hpos
    hfits.openings rfl ?_
  intro hmod
  rw [nextOut, hmod, u32_of_lt (x := sh.openingsLen) hfits.openings, Nat.zero_add,
    u32_of_lt hfits.openings, if_pos (by omega)]

/-- After the openings the first squeeze starts from a full output buffer. -/
lemma leftOut_openings {sh : CircuitShape} (hfits : sh.FitsU32) :
    leftOut ((0 + sh.openingsLen) % 8) (nextOut 0 6 sh.openingsLen) extensionDegree = 6 := by
  have hpos := openingsLen_pos sh
  have hlt := hfits.openings
  rw [leftOut, nextOut, u32_of_lt (x := sh.openingsLen) hlt, extensionDegree]
  split_ifs with hmod hge
  · rfl
  · rfl
  · rw [u32_of_lt (by omega)] at hge
    omega

lemma triple_finalPoly (permute : (Fin 12 → F) → Fin 12 → F) {sh : CircuitShape}
    (hne : sh.reductionArityBits ≠ []) (hfinal : 4 ≤ sh.finalPolyLen) (hfits : sh.FitsU32)
    (cell : ℕ → F) :
    Triple (InStep 0 6)
      (Host.observeAll permute (basefield
        ((extensionVec sh.finalFoldedLen cell).take sh.finalPolyLen)))
      (Device.observe permute ⟨sh.finalFoldedLen, cell⟩ (sh.finalFoldedLen >>> sh.rateBits) 0)
      (InStep 0 8) := by
  have hsum := CircuitShape.sum_add_two_le hne hfinal
  have hbits := hfits.bits_lt
  obtain ⟨e, he⟩ : ∃ e, sh.degreeBits + sh.rateBits = sh.reductionArityBits.sum + e :=
    Nat.exists_eq_add_of_le (by omega)
  have hlen : sh.finalFoldedLen = 2 ^ (e + 1) := by
    rw [CircuitShape.finalFoldedLen_eq hne]
    congr 1
    omega
  have hnum : 2 ^ (e + 1) >>> sh.rateBits = 2 ^ (e + 1 - sh.rateBits) :=
    two_pow_shiftRight (by omega)
  have hpow : ∀ k, 3 ≤ k → k < 32 → 8 ≤ 2 ^ k ∧ 2 ^ k < 2 ^ 32 ∧ 2 ^ k % 8 = 0 := by
    intro k hk hk32
    obtain ⟨m, rfl⟩ := Nat.exists_eq_add_of_le' hk
    have hlt : 2 ^ (m + 3) < 2 ^ 32 := Nat.pow_lt_pow_right (by omega) hk32
    have hmpos := Nat.two_pow_pos m
    rw [pow_add] at hlt ⊢
    omega
  obtain ⟨hl8, hl32, hlmod⟩ := hpow (e + 1) (by omega) (by omega)
  obtain ⟨hn8, hn32, hnmod⟩ := hpow (e + 1 - sh.rateBits) (by omega) (by omega)
  have hin : (0 + 2 ^ (e + 1)) % 8 = 0 := by omega
  have hout : nextOut 0 6 (2 ^ (e + 1)) = 8 := by
    rw [nextOut, hin, u32_of_lt (x := 2 ^ (e + 1)) hl32, Nat.zero_add, u32_of_lt hl32,
      if_pos hl8]
  have hstep := triple_observe_start permute 0 (o := 6) (2 ^ (e + 1)) cell (by omega)
    (Nat.two_pow_pos (e + 1 - sh.rateBits)) hn32 (by rw [hlmod, hnmod]) (fun _ => hout)
  rw [hin, hout] at hstep
  rw [Host.observeAll_eq, CircuitShape.finalPolyLen, hlen,
    flatten_basefield_take (by omega), hnum]
  exact hstep

/-- The two sides give the same challenges and pass the same elements through the transcript. -/
def SameTranscript (permute : (Fin 12 → F) → Fin 12 → F) (sh : CircuitShape)
    (b : ProveBuffers F) (p : TranscriptProof F) : Prop :=
  let device := ((Device.prove permute sh b).run (.new, [])).run
  let host := ((Host.getChallenges permute sh ((List.range 4).map b.circuitDigest) p).run
    (.new, [])).run
  device.1 = host.1 ∧ device.2.2 = host.2.2

/-- A prove started from a fresh challenger derives the challenges that `get_challenges` derives
from the assembled proof, when the sizes of the transcript fit in 32 bits. -/
theorem Device.prove_sameTranscript (permute : (Fin 12 → F) → Fin 12 → F) (sh : CircuitShape)
    (hcap : 1 ≤ sh.capHeight) (hne : sh.reductionArityBits ≠ []) (hfinal : 4 ≤ sh.finalPolyLen)
    (hfits : sh.FitsU32) (b : ProveBuffers F) (p : TranscriptProof F)
    (hp : assembleProof sh b = some p) : SameTranscript permute sh b p := by
  have hbits := hfits.bits_lt
  have harities := sh.arities_le
  have htree : ∀ cells : ℕ → F, (⟨sh.merkleTreeLen, cells⟩ : DeviceBuffer F).len =
      2 ^ (sh.degreeBits + sh.rateBits + 3) := fun _ => sh.merkleTreeLen_eq
  simp only [assembleProof, Option.bind_eq_bind, Option.bind_eq_some_iff, Option.pure_def,
    Option.some.injEq] at hp
  obtain ⟨openings, hopenings, rfl⟩ := hp
  suffices H : Triple (InStep 0 0)
      (Host.getChallenges permute sh ((List.range 4).map b.circuitDigest) _)
      (Device.prove permute sh b) (fun s t => s.2 = t.2) by
    obtain ⟨hval, hlog⟩ := H (.new, []) (.new, []) ⟨ChallengerGpu.follows_new, rfl, rfl, rfl⟩
    exact ⟨hval.symm, hlog.symm⟩
  unfold Host.getChallenges Device.prove
  -- the digest leaves four inputs buffered and the second index at 8, where it should be 0
  refine Triple.bind (triple_observe_start permute 0 4 b.circuitDigest (by omega) (by omega)
    (by omega) rfl (by omega)) fun _ => ?_
  -- the hash of the public inputs completes the block, and only now the second index is right
  simp only [← hashPi_eq b.publicInputs hfits.publicInputs]
  refine Triple.bind (triple_observe_start permute 4 4 _ (by decide) (by omega) (by omega) rfl
    (by decide)) fun _ => ?_
  refine Triple.bind (triple_cap (by decide) hcap (htree _) (by omega) hbits) fun _ => ?_
  refine Triple.bind (triple_sample 0 8 (by decide) (by decide)) fun betas => ?_
  refine Triple.bind (triple_sample 0 6 (by decide) (by decide)) fun gammas => ?_
  refine Triple.bind (triple_cap (by decide) hcap (htree _) (by omega) hbits) fun _ => ?_
  refine Triple.bind (triple_sample 0 8 (by decide) (by decide)) fun alphas => ?_
  refine Triple.bind (triple_cap (by decide) hcap (htree _) (by omega) hbits) fun _ => ?_
  refine Triple.bind (triple_sample 0 8 (by decide) (by decide)) fun zeta => ?_
  -- the openings may end inside a block; squeezing works either way
  refine Triple.bind (triple_openings permute hfits hopenings) fun _ => ?_
  refine Triple.bind (triple_sample _ _ (by decide) (by decide)) fun friAlpha => ?_
  rw [leftOut_openings hfits]
  refine Triple.bind (triple_friRounds hcap _ (CircuitShape.roundTrees_len hfits b))
    fun friBetas => ?_
  refine Triple.bind (triple_finalPoly permute hne hfinal hfits b.finalCoefficients)
    fun _ => ?_
  refine Triple.bind (triple_observe_start permute 0 1 (fun _ => b.powWitness) (by omega)
    (by omega) (by omega) rfl (by decide)) fun _ => ?_
  refine Triple.bind (triple_sample 1 8 (by decide) (by decide)) fun powResponse => ?_
  refine Triple.bind (triple_sample_last _ _ hfits.queries) fun querySamples => ?_
  exact Triple.pure _

/-- The sizes of a small circuit. -/
def smallShape (degreeBits rateBits arityBits : ℕ)
    (h : [arityBits].sum + 1 ≤ degreeBits + rateBits) : CircuitShape where
  degreeBits := degreeBits
  rateBits := rateBits
  capHeight := 1
  reductionArityBits := [arityBits]
  numConstants := 1
  numRoutedWires := 4
  numWires := 4
  numPartialProducts := 2
  numQuotients := 8
  numQueryRounds := 2
  numPublicInputs := 9
  arities_le := h

/-- Buffers whose cells hold their own indices. -/
def indexBuffers : ProveBuffers ℕ where
  circuitDigest := id
  publicInputs := id
  wiresTree := id
  partialProductsTree := id
  quotientsTree := id
  openings := id
  roundTrees := fun _ => id
  finalCoefficients := id
  powWitness := 5

/-- A stand-in for the permutation that tells the lanes apart. -/
def stepPermute (st : Fin 12 → ℕ) (j : Fin 12) : ℕ := st j + j + 1

theorem Device.prove_sameTranscript_small :
    ∃ p, assembleProof (smallShape 5 3 3 (by decide)) indexBuffers = some p ∧
      SameTranscript stepPermute (smallShape 5 3 3 (by decide)) indexBuffers p := by
  obtain ⟨p, hp⟩ := Option.isSome_iff_exists.mp
    (show (assembleProof (smallShape 5 3 3 (by decide)) indexBuffers).isSome by decide)
  exact ⟨p, hp, Device.prove_sameTranscript stepPermute (smallShape 5 3 3 (by decide))
    (by decide) (by decide) (by decide) ⟨by decide, by decide, by decide, by decide⟩
    indexBuffers p hp⟩

/-- Trees of `2 ^ 32` elements have length 0 as a 32-bit number: the second index stays at 4
after the cap of the partial products, and the alphas are read from the wrong lanes. -/
theorem Device.prove_not_sameTranscript_large :
    1 ≤ (smallShape 27 2 24 (by decide)).capHeight ∧
      4 ≤ (smallShape 27 2 24 (by decide)).finalPolyLen ∧
      ∃ p, assembleProof (smallShape 27 2 24 (by decide)) indexBuffers = some p ∧
        ¬ SameTranscript stepPermute (smallShape 27 2 24 (by decide)) indexBuffers p := by
  obtain ⟨p, hp⟩ := Option.isSome_iff_exists.mp
    (show (assembleProof (smallShape 27 2 24 (by decide)) indexBuffers).isSome by decide)
  refine ⟨by decide, by decide, p, hp, fun h => ?_⟩
  have hdevice : ((Device.prove stepPermute (smallShape 27 2 24 (by decide))
      indexBuffers).run (.new, [])).run.1.plonkAlphas = [4294967287, 4294967285] := by
    decide
  have hhost : (assembleProof (smallShape 27 2 24 (by decide)) indexBuffers).map
      (fun p => ((Host.getChallenges stepPermute (smallShape 27 2 24 (by decide))
        ((List.range 4).map indexBuffers.circuitDigest) p).run (.new, [])).run.1.plonkAlphas) =
      some [4294967295, 4294967293] := by
    decide +kernel
  rw [hp, Option.map_some, Option.some.injEq] at hhost
  have halphas := congrArg ProofChallenges.plonkAlphas h.1
  rw [hdevice, hhost] at halphas
  simp at halphas

end MegaZK
