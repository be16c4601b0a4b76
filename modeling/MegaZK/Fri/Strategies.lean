import MegaZK.Fri.CommitStage
import MegaZK.Tiles.Coverage

/-! # Reduction strategies

`FriReductionStrategy` decides the arities of the FRI reductions when a circuit is built. The commit
stage handles some of the lists that it can yield. -/

namespace MegaZK

/-! ### Source -/

/-- `FriReductionStrategy`. -/
inductive FriReductionStrategy
  | fixed (reductionArityBits : List ℕ)
  | constantArityBits (arityBits finalPolyBits : ℕ)
  | minSize (optMaxArityBits : Option ℕ)

/-- The loop of `ConstantArityBits`, for at most `fuel` rounds. An arity of one bit less than one
never ends it. -/
def constantLoop (arityBits finalPolyBits rateBits capHeight : ℕ) : ℕ → ℕ → Option (List ℕ)
  | 0, _ => none
  | fuel + 1, degreeBits =>
    if finalPolyBits < degreeBits ∧
        capHeight ≤ (degreeBits + rateBits + 2 ^ 64 - arityBits) % 2 ^ 64 then
      if arityBits ≤ degreeBits then
        (constantLoop arityBits finalPolyBits rateBits capHeight fuel
          (degreeBits - arityBits)).map (arityBits :: ·)
      else none
    else some []

/-- `relative_proof_size`. -/
def relativeProofSize (degreeBits rateBits numQueries : ℕ) (arityBits : List ℕ) : ℕ :=
  let d := 4
  let r := arityBits.foldl
    (fun (totalElems, currentLayerBits) arityBits =>
      (totalElems + (1 <<< arityBits - 1) * d * numQueries + currentLayerBits * 4 * numQueries,
        currentLayerBits - arityBits))
    (0, degreeBits + rateBits)
  r.1 + d * 1 <<< (r.2 - rateBits)

/-- `min_size_arity_bits_helper`. Every arity has at least one bit, so that `degree_bits` calls
within each other are enough. -/
def minSizeHelper (degreeBits rateBits numQueries : ℕ) : ℕ → ℕ → List ℕ → List ℕ × ℕ
  | 0, _, arities => (arities, relativeProofSize degreeBits rateBits numQueries arities)
  | fuel + 1, globalMaxArityBits, arities =>
    let maxArityBits := min (arities.getLast?.getD globalMaxArityBits) (degreeBits - arities.sum)
    (List.range' 1 maxArityBits).foldl
      (fun best nextArityBits =>
        let next := minSizeHelper degreeBits rateBits numQueries fuel maxArityBits
          (arities ++ [nextArityBits])
        if next.2 < best.2 then next else best)
      (arities, relativeProofSize degreeBits rateBits numQueries arities)

/-- `reduction_arity_bits`. -/
def FriReductionStrategy.reductionArityBits (degreeBits rateBits capHeight numQueries : ℕ) :
    FriReductionStrategy → Option (List ℕ)
  | fixed reductionArityBits => some reductionArityBits
  | constantArityBits arityBits finalPolyBits =>
    constantLoop arityBits finalPolyBits rateBits capHeight (degreeBits + 1) degreeBits
  | minSize optMaxArityBits =>
    some (minSizeHelper degreeBits rateBits numQueries degreeBits (optMaxArityBits.getD 4) []).1

/-- A circuit with the strategy that its reductions come from. -/
structure StrategyCircuit extends CommonCircuitData where
  strategy : FriReductionStrategy
  yields : strategy.reductionArityBits degreeBits rateBits capHeight numQueryRounds =
    some reductionArityBits

/-! ### The lists of the strategies -/

/-- `ConstantArityBits` repeats its arity. -/
lemma constantLoop_some {arityBits finalPolyBits rateBits capHeight fuel degreeBits : ℕ}
    {l : List ℕ} (h : constantLoop arityBits finalPolyBits rateBits capHeight fuel degreeBits =
      some l) :
    (∀ a ∈ l, a = arityBits) ∧ l.sum ≤ degreeBits := by
  induction fuel generalizing degreeBits l with
  | zero => cases h
  | succ fuel ih =>
    rw [constantLoop] at h
    split_ifs at h with hloop hle
    · obtain ⟨l', hl', rfl⟩ := Option.map_eq_some_iff.mp h
      obtain ⟨hmem, hsum⟩ := ih hl'
      refine ⟨List.forall_mem_cons.mpr ⟨rfl, hmem⟩, ?_⟩
      rw [List.sum_cons]
      omega
    · cases h
      simp

/-- `MinSize` extends its list by arities up to the maximum, as long as the degree allows. -/
lemma minSizeHelper_bounds {degreeBits rateBits numQueries fuel globalMaxArityBits b : ℕ}
    {arities : List ℕ} (hglobal : arities = [] → globalMaxArityBits ≤ b)
    (hmax : ∀ a ∈ arities, a ≤ b) (hsum : arities.sum ≤ degreeBits) :
    (∀ a ∈ (minSizeHelper degreeBits rateBits numQueries fuel globalMaxArityBits arities).1,
        a ≤ b) ∧
      (minSizeHelper degreeBits rateBits numQueries fuel globalMaxArityBits arities).1.sum ≤
        degreeBits := by
  induction fuel generalizing globalMaxArityBits arities with
  | zero => exact ⟨hmax, hsum⟩
  | succ fuel ih =>
    have hlast : arities.getLast?.getD globalMaxArityBits ≤ b := by
      cases hcases : arities.getLast? with
      | none => exact hglobal (List.getLast?_eq_none_iff.mp hcases)
      | some a => exact hmax a (List.mem_of_getLast? hcases)
    rw [minSizeHelper]
    refine List.foldlRecOn (motive := fun best : List ℕ × ℕ =>
      (∀ a ∈ best.1, a ≤ b) ∧ best.1.sum ≤ degreeBits) _ _ ⟨hmax, hsum⟩ ?_
    intro best hbest next hnext
    obtain ⟨hpos, hlt⟩ := List.mem_range'_1.mp hnext
    dsimp only
    split_ifs
    · refine ih (fun hnil => absurd hnil (by simp)) ?_ ?_
      · intro a ha
        rcases List.mem_append.mp ha with ha | ha
        · exact hmax a ha
        · rw [List.mem_singleton.mp ha]
          omega
      · rw [List.sum_append, List.sum_singleton]
        omega
    · exact hbest

/-! ### The stage -/

section Stage

variable (permute : (Fin 12 → GoldilocksField) → Fin 12 → GoldilocksField) (c : StrategyCircuit)

/-- The stage runs for the lists without an arity below four bits that are not empty and do not go
below a constant, in trees and caps of a size that the launches can count. -/
theorem commitStageRuns_iff : c.CommitStageRuns permute ↔
    c.reductionArityBits ≠ [] ∧ (∀ a ∈ c.reductionArityBits, 4 ≤ a ∧ a ≤ 30) ∧
      c.reductionArityBits.sum ≤ c.degreeBits ∧ c.capHeight ≤ 8 ∧
      c.degreeBits + c.rateBits ≤ 31 := by
  constructor
  · intro h
    have hfits := h.fits
    exact ⟨hfits.nonempty, hfits.arities, hfits.degree, hfits.cap, hfits.lde⟩
  · rintro ⟨hnonempty, harities, hdegree, hcap, hlde⟩
    exact CommonCircuitData.CommitStageFits.runs permute ⟨hnonempty, harities, hdegree, hcap, hlde⟩

variable {permute c}

/-- With `ConstantArityBits` it runs if the first round is made, for four bits or more. -/
theorem commitStageRuns_constant {arityBits finalPolyBits : ℕ}
    (hstrategy : c.strategy = .constantArityBits arityBits finalPolyBits)
    (harity : 4 ≤ arityBits ∧ arityBits ≤ 30) (hcap : c.capHeight ≤ 8)
    (hlde : c.degreeBits + c.rateBits ≤ 31) (hdegree : finalPolyBits < c.degreeBits)
    (hround : arityBits + c.capHeight ≤ c.degreeBits + c.rateBits) :
    c.CommitStageRuns permute := by
  have hyields := c.yields
  rw [hstrategy] at hyields
  obtain ⟨hconstant, hsum⟩ := constantLoop_some hyields
  refine (CommonCircuitData.CommitStageFits.mk ?_ ?_ hsum hcap hlde).runs permute
  · intro hnil
    rw [hnil, FriReductionStrategy.reductionArityBits, constantLoop, if_pos ⟨hdegree, by omega⟩]
      at hyields
    split_ifs at hyields
    simp at hyields
  · intro a ha
    rw [hconstant a ha]
    exact harity

/-- With the maximum of three bits that `MinSize` recommends it never runs. -/
theorem not_commitStageRuns_minSize {maxArityBits : ℕ}
    (hstrategy : c.strategy = .minSize (some maxArityBits)) (hmax : maxArityBits ≤ 3) :
    ¬c.CommitStageRuns permute := by
  intro h
  have hyields := c.yields
  rw [hstrategy] at hyields
  have hlist := Option.some.inj hyields
  obtain ⟨hbound, -⟩ := @minSizeHelper_bounds c.degreeBits c.rateBits c.numQueryRounds
    c.degreeBits maxArityBits maxArityBits [] (fun _ => le_rfl) (by simp)
    (Nat.zero_le c.degreeBits)
  have hfits := h.fits
  rw [Option.getD_some] at hlist
  rw [hlist] at hbound
  obtain ⟨a, ha⟩ := List.exists_mem_of_ne_nil _ hfits.nonempty
  have hle := hbound a ha
  have hge := (hfits.arities a ha).1
  omega

end Stage

/-- The standard configuration with 32 rows makes no reduction. -/
def noReductions : StrategyCircuit :=
  { smallRecursion with
    strategy := .constantArityBits 4 5
    yields := by decide }

/-- With `2 ^ 12` rows the search up to three bits makes one reduction. -/
def threeBits : StrategyCircuit :=
  { smallRecursion with
    degreeBits := 12
    reductionArityBits := [3]
    strategy := .minSize (some 3)
    arities_le := by decide
    lde_le := standardLde
    yields := by decide }

theorem not_commitStageRuns :
    (¬∀ permute, noReductions.CommitStageRuns permute) ∧
      ¬∀ permute, threeBits.CommitStageRuns permute := by
  constructor
  · exact fun h => (h id).fits.nonempty rfl
  · intro h
    have hlow : 4 ≤ 3 := ((h id).fits.arities 3 (List.mem_cons_self ..)).1
    exact absurd hlow (by decide)

end MegaZK
