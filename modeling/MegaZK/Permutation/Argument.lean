import Mathlib.Data.Set.Card
import MegaZK.Lib.GrandProduct
import MegaZK.Permutation.CosetShifts
import MegaZK.Permutation.Sigma
import MegaZK.Quotient.Vanishing

/-! # The permutation argument

The checks on `Z` and the partial products, row by row of the subgroup, over the sigma columns that
the builder makes from the copy constraints. Columns that pass them exist for few challenges unless
the wires respect the copy constraints. -/

namespace MegaZK

/-! ### The preprocessed circuit -/

/-- `PermutationPreprocessing`, with the sigma columns. -/
structure PermutationPreprocessing where
  sigmaVecs : List (List GoldilocksField)
  forest : Forest
  subgroup : List GoldilocksField
  kIs : List GoldilocksField

namespace RoutedCircuit

variable (b : RoutedCircuit)

/-- The permutation in `preprocess_shared`; the field has no subgroup of more than `2 ^ 32`
elements. -/
def preprocess (order : IntoValues) : Option PermutationPreprocessing := do
  if 32 < b.degreeBits then none
  let subgroup := (List.range (2 ^ b.degreeBits)).map (twoAdicSubgroup b.degreeBits)
  let kIs ← getUniqueCosetShifts b.degree b.numRoutedWires
  let (sigmaVecs, forest) ← b.sigmaVecs order kIs subgroup
  return ⟨sigmaVecs, forest, subgroup, kIs⟩

/-- The sizes that the common data take over from the builder. -/
structure Builds (c : CommonCircuitData) : Prop where
  routed_eq : c.numRoutedWires = b.numRoutedWires
  degreeBits_eq : c.degreeBits = b.degreeBits

end RoutedCircuit

namespace PermutationPreprocessing

variable (pre : PermutationPreprocessing)

/-- The name of a wire. -/
def name (w : Wire) : GoldilocksField := pre.kIs.getD w.column 0 * pre.subgroup.getD w.row 0

/-- The columns of the permutation, with the wires of a witness. -/
def columns (wire : ℕ → ℕ → GoldilocksField) : PermutationColumns GoldilocksField where
  wire := wire
  sigma i j := (pre.sigmaVecs.getD j []).getD i 0

/-- The challenges `β` and `γ` of every round, with the subgroup and the shifts. -/
def inputs (challenges : ℕ → GoldilocksField × GoldilocksField) :
    PermutationInputs GoldilocksField where
  subgroup i := pre.subgroup.getD i 0
  kIs j := pre.kIs.getD j 0
  betas k := (challenges k).1
  gammas k := (challenges k).2

/-- What the preprocessing computes. -/
structure Spec (b : RoutedCircuit) (next : Wire → Wire) : Prop where
  follows : b.FollowsCopies next
  forest_eq : b.forest = some pre.forest
  name_inj : ∀ u ∈ b.routedWires, ∀ v ∈ b.routedWires, pre.name u = pre.name v → u = v
  sigma_eq : ∀ w ∈ b.routedWires, (pre.sigmaVecs.getD w.column []).getD w.row 0 = pre.name (next w)

end PermutationPreprocessing

lemma RoutedCircuit.preprocess_spec {b : RoutedCircuit} {order : IntoValues}
    {pre : PermutationPreprocessing} (h : b.preprocess order = some pre) :
    ∃ next, pre.Spec b next := by
  have hbits : b.degreeBits ≤ 32 := by
    by_contra hlt
    simp [preprocess, Nat.lt_of_not_le hlt] at h
  simp only [preprocess, Nat.not_lt.mpr hbits, ↓reduceIte, Option.bind_eq_bind] at h
  obtain ⟨kIs, hkIs, h⟩ := Option.bind_eq_some_iff.mp h
  obtain ⟨-, -, hshifts⟩ := getUniqueCosetShifts_eq_some hkIs hbits
  have hlen : kIs.length = b.numRoutedWires := by rw [hshifts, List.length_map, List.length_range]
  obtain ⟨next, f, hnext, hforest, hsigma⟩ := b.sigmaVecs_eq order kIs
    ((List.range (2 ^ b.degreeBits)).map (twoAdicSubgroup b.degreeBits)) hlen (by simp)
  rw [hsigma, Option.bind_some] at h
  cases h
  have hgroup : ∀ r < b.degree, ((List.range (2 ^ b.degreeBits)).map
      (twoAdicSubgroup (F := GoldilocksField) b.degreeBits)).getD r 0 =
        primitiveRootOfUnity b.degreeBits ^ r := by
    intro r hr
    have hr' : r < 2 ^ b.degreeBits := hr
    simp [twoAdicSubgroup, hr']
  refine ⟨next, hnext, hforest, ?_, ?_⟩
  · intro u hu v hv huv
    obtain ⟨hur, huc⟩ := mem_routedWires.mp hu
    obtain ⟨hvr, hvc⟩ := mem_routedWires.mp hv
    rw [PermutationPreprocessing.name, PermutationPreprocessing.name, hgroup _ hur,
      hgroup _ hvr] at huv
    obtain ⟨hcol, hrow⟩ := cosetShifts_unique hbits hkIs huc hvc hur hvr huv
    cases u
    cases v
    rw [Wire.mk.injEq]
    exact ⟨hrow, hcol⟩
  · intro w hw
    obtain ⟨hrow, hcol⟩ := mem_routedWires.mp hw
    simp [sigmaColumn, PermutationPreprocessing.name, hrow, hcol]

lemma RoutedCircuit.exists_preprocess {b : RoutedCircuit} (order : IntoValues)
    (hbits : b.degreeBits < 32) (hfit : b.numRoutedWires * b.degree ≤ goldilocksOrder - 1) :
    ∃ pre, b.preprocess order = some pre := by
  have hkIs := getUniqueCosetShifts_isSome hbits hfit
  have hlen : ((List.range b.numRoutedWires).map fun i => (7 : GoldilocksField) ^ i).length =
      b.numRoutedWires := by rw [List.length_map, List.length_range]
  obtain ⟨next, f, -, -, hsigma⟩ := b.sigmaVecs_eq order _
    ((List.range (2 ^ b.degreeBits)).map (twoAdicSubgroup b.degreeBits)) hlen (by simp)
  simp only [preprocess, Nat.not_lt.mpr hbits.le, ↓reduceIte, Option.bind_eq_bind, degree, hkIs,
    Option.bind_some, hsigma]
  exact ⟨_, rfl⟩

/-- The preprocessing succeeds exactly when the field has enough cosets. Its sigma columns then hold,
for every routed wire, the name of the next wire of its copy class, the cycles being the classes of
the copy constraints and the names being distinct. -/
theorem RoutedCircuit.preprocess_iff_and_spec (b : RoutedCircuit) (order : IntoValues) :
    ((∃ pre, b.preprocess order = some pre) ↔
        b.degreeBits < 32 ∧ b.numRoutedWires * b.degree ≤ goldilocksOrder - 1) ∧
      ∀ pre, b.preprocess order = some pre → ∃ next, pre.Spec b next := by
  refine ⟨⟨?_, fun ⟨hbits, hfit⟩ => exists_preprocess order hbits hfit⟩,
    fun pre => b.preprocess_spec⟩
  rintro ⟨pre, h⟩
  have hbits : b.degreeBits ≤ 32 := by
    by_contra hlt
    simp [preprocess, Nat.lt_of_not_le hlt] at h
  simp only [preprocess, Nat.not_lt.mpr hbits, ↓reduceIte, Option.bind_eq_bind] at h
  obtain ⟨kIs, hkIs, -⟩ := Option.bind_eq_some_iff.mp h
  obtain ⟨hlt, hfit, -⟩ := getUniqueCosetShifts_eq_some hkIs hbits
  exact ⟨hlt, hfit⟩

/-- Nothing in the preprocessed permutation depends on the order of the hash map. -/
theorem RoutedCircuit.preprocess_order (b : RoutedCircuit) (order order' : IntoValues) :
    b.preprocess order = b.preprocess order' := by
  simp only [preprocess, b.sigmaVecs_order order order']

/-! ### The checks on the subgroup -/

namespace CommonCircuitData

variable (c : CommonCircuitData)

/-- The columns in row `i` of the subgroup. The columns of `zs` are in the committed order: first
the `Z` of every challenge, then the partial products. -/
def rowVars (cols : PermutationColumns GoldilocksField) (zs : ℕ → ℕ → GoldilocksField) (i : ℕ) :
    VanishingVars GoldilocksField where
  localWires := cols.wire i
  localZs k := zs k i
  nextZs k := zs k ((i + 1) % 2 ^ c.degreeBits)
  partialProducts j := zs (c.numChallenges + j) i
  sSigmas := cols.sigma i

/-- The terms of the vanishing polynomial for the permutation and challenge `k` vanish on the
subgroup. -/
structure PermutationHolds (p : PermutationInputs GoldilocksField)
    (cols : PermutationColumns GoldilocksField) (zs : ℕ → ℕ → GoldilocksField) (k : ℕ) : Prop where
  first : zs k 0 = 1
  checks : ∀ i < 2 ^ c.degreeBits, ∃ terms,
    c.partialProductChecks ⟨p.kIs, p.betas, p.gammas, p.gammas⟩ (c.rowVars cols zs i)
      (p.subgroup i) k = some terms ∧ ∀ t ∈ terms, t = 0

end CommonCircuitData

/-! ### Telescoping -/

section Telescope

variable {F : Type} [Field F]

lemma flatten_chunks {α : Type} {q : ℕ} (hq : 0 < q) (l : List α) : (chunks q l).flatten = l := by
  have htake : ∀ m, ((List.range m).map fun c => (l.drop (c * q)).take q).flatten =
      l.take (m * q) := by
    intro m
    induction m with
    | zero => simp
    | succ m ih => rw [List.range_succ, List.map_append, List.flatten_append, ih, Nat.succ_mul,
        List.take_add, List.map_singleton, List.flatten_singleton]
  rw [chunks, htake]
  apply List.take_of_length_le
  have hceil := Nat.div_add_mod (l.length + q - 1) q
  have hlt := Nat.mod_lt (l.length + q - 1) hq
  rw [Nat.mul_comm] at hceil
  omega

/-- The accumulators telescope over the chunks. -/
lemma mul_prod_eq_of_checks (nume deno : List (List F)) (z : F) (rest : List F)
    (hdeno : nume.length = deno.length) (hrest : nume.length = rest.length)
    (h : ∀ t ∈ List.zipWith (fun chunk accs => accs.1 * chunk.1.prod - accs.2 * chunk.2.prod)
      (nume.zip deno) ((z :: rest).zip rest), t = 0) :
    z * nume.flatten.prod = (z :: rest).getLast (by simp) * deno.flatten.prod := by
  induction nume generalizing deno z rest with
  | nil =>
    cases List.length_eq_zero_iff.mp hdeno.symm
    cases List.length_eq_zero_iff.mp hrest.symm
    rfl
  | cons n nume ih =>
    cases deno with
    | nil => simp at hdeno
    | cons d deno =>
      cases rest with
      | nil => simp at hrest
      | cons a rest =>
        have hstep : z * n.prod = a * d.prod := sub_eq_zero.mp (h _ (by simp))
        have htail := ih deno a rest (Nat.succ.inj hdeno) (Nat.succ.inj hrest)
          (fun t ht => h t (List.mem_cons_of_mem _ ht))
        rw [List.flatten_cons, List.prod_append, List.flatten_cons, List.prod_append,
          List.getLast_cons (by simp), ← mul_assoc, hstep, mul_right_comm, htail]
        ring

lemma mul_prod_eq_of_checkPartialProducts {q : ℕ} (hq : 0 < q) {nume deno partials : List F}
    {zX zGx : F} {terms : List F}
    (h : checkPartialProducts nume deno partials zX zGx q = some terms)
    (hzero : ∀ t ∈ terms, t = 0) : zX * nume.prod = zGx * deno.prod := by
  simp only [checkPartialProducts, Option.ite_none_right_eq_some, Option.some.injEq] at h
  obtain ⟨⟨hdeno, hacc⟩, rfl⟩ := h
  have htele := mul_prod_eq_of_checks (chunks q nume) (chunks q deno) zX (partials ++ [zGx]) hdeno
    (by simpa using hacc) hzero
  rwa [flatten_chunks hq, flatten_chunks hq, List.getLast_cons (by simp),
    List.getLast_append_singleton] at htele

end Telescope

/-! ### The product of all rows -/

section Rows

variable {c : CommonCircuitData} {p : PermutationInputs GoldilocksField}
  {cols : PermutationColumns GoldilocksField} {zs : ℕ → ℕ → GoldilocksField} {k : ℕ}

/-- The numerators of row `i`. -/
def rowNumerator (c : CommonCircuitData) (p : PermutationInputs GoldilocksField)
    (cols : PermutationColumns GoldilocksField) (k i : ℕ) : GoldilocksField :=
  ∏ j ∈ Finset.range c.numRoutedWires,
    (cols.wire i j + p.betas k * (p.kIs j * p.subgroup i) + p.gammas k)

/-- The denominators of row `i`. -/
def rowDenominator (c : CommonCircuitData) (p : PermutationInputs GoldilocksField)
    (cols : PermutationColumns GoldilocksField) (k i : ℕ) : GoldilocksField :=
  ∏ j ∈ Finset.range c.numRoutedWires, (cols.wire i j + p.betas k * cols.sigma i j + p.gammas k)

namespace CommonCircuitData.PermutationHolds

lemma row_eq (h : c.PermutationHolds p cols zs k) {i : ℕ} (hi : i < 2 ^ c.degreeBits) :
    zs k i * rowNumerator c p cols k i =
      zs k ((i + 1) % 2 ^ c.degreeBits) * rowDenominator c p cols k i := by
  obtain ⟨terms, hterms, hzero⟩ := h.checks i hi
  exact mul_prod_eq_of_checkPartialProducts c.quotientDegreeFactor_pos hterms hzero

/-- `Z` returns to one after the last row. -/
lemma prod_eq (h : c.PermutationHolds p cols zs k) :
    ∏ i ∈ Finset.range (2 ^ c.degreeBits), rowNumerator c p cols k i =
      ∏ i ∈ Finset.range (2 ^ c.degreeBits), rowDenominator c p cols k i := by
  have hrun : ∀ m ≤ 2 ^ c.degreeBits, ∏ i ∈ Finset.range m, rowNumerator c p cols k i =
      zs k (m % 2 ^ c.degreeBits) * ∏ i ∈ Finset.range m, rowDenominator c p cols k i := by
    intro m hm
    induction m with
    | zero => simp [h.first]
    | succ m ih =>
      have hrow := h.row_eq hm
      rw [Finset.prod_range_succ, Finset.prod_range_succ, ih (Nat.le_of_succ_le hm),
        Nat.mod_eq_of_lt hm, mul_right_comm, hrow]
      ring
  have hall := hrun _ le_rfl
  rwa [Nat.mod_self, h.first, one_mul] at hall

end CommonCircuitData.PermutationHolds

end Rows

/-! ### The permutation of the wires -/

namespace RoutedCircuit

variable {b : RoutedCircuit} {next : Wire → Wire}

/-- The routed wire at a position. -/
def wireAt (x : Fin b.degree × Fin b.numRoutedWires) : Wire := ⟨x.1, x.2⟩

lemma wireAt_mem (x : Fin b.degree × Fin b.numRoutedWires) : wireAt x ∈ b.routedWires :=
  mem_routedWires.mpr ⟨x.1.isLt, x.2.isLt⟩

lemma wireAt_injective : Function.Injective (wireAt (b := b)) := by
  intro x y hxy
  exact Prod.ext (Fin.ext (congrArg Wire.row hxy)) (Fin.ext (congrArg Wire.column hxy))

lemma exists_wireAt {w : Wire} (hw : w ∈ b.routedWires) : ∃ x, wireAt (b := b) x = w := by
  obtain ⟨hrow, hcol⟩ := mem_routedWires.mp hw
  exact ⟨(⟨w.row, hrow⟩, ⟨w.column, hcol⟩), rfl⟩

/-- `next` as a permutation of the positions. -/
lemma FollowsCopies.exists_perm (h : b.FollowsCopies next) :
    ∃ σ : Equiv.Perm (Fin b.degree × Fin b.numRoutedWires),
      ∀ x, wireAt (σ x) = next (wireAt x) := by
  choose f hf using fun x => exists_wireAt (b := b) (h.mem _ (wireAt_mem x))
  have hinj : Function.Injective f := by
    intro x y hxy
    apply wireAt_injective
    apply h.injOn (wireAt_mem x) (wireAt_mem y)
    rw [← hf, ← hf, hxy]
  exact ⟨Equiv.ofBijective f (Finite.injective_iff_bijective.mp hinj), hf⟩

end RoutedCircuit

/-! ### Soundness -/

namespace PermutationPreprocessing.Spec

open GrandProduct

variable {b : RoutedCircuit} {pre : PermutationPreprocessing} {next : Wire → Wire}
  {c : CommonCircuitData} {wire : ℕ → ℕ → GoldilocksField}

/-- The product over all rows and routed wires. -/
lemma prod_rows_eq (hc : b.Builds c) (f : ℕ → ℕ → GoldilocksField) :
    ∏ i ∈ Finset.range (2 ^ c.degreeBits), ∏ j ∈ Finset.range c.numRoutedWires, f i j =
      ∏ x : Fin b.degree × Fin b.numRoutedWires, f x.1 x.2 := by
  rw [hc.degreeBits_eq, hc.routed_eq, Finset.prod_range, Fintype.prod_prod_type]
  simp only [Finset.prod_range]
  rfl

lemma prod_rowNumerator (hc : b.Builds c) (ch : ℕ → GoldilocksField × GoldilocksField) (k : ℕ) :
    ∏ i ∈ Finset.range (2 ^ c.degreeBits),
        rowNumerator c (pre.inputs ch) (pre.columns wire) k i =
      prodAt (fun x : Fin b.degree × Fin b.numRoutedWires => wire x.1 x.2)
        (pre.name ∘ RoutedCircuit.wireAt) (ch k).1 (ch k).2 := by
  simp only [rowNumerator]
  rw [prod_rows_eq hc fun i j => (pre.columns wire).wire i j + (pre.inputs ch).betas k *
    ((pre.inputs ch).kIs j * (pre.inputs ch).subgroup i) + (pre.inputs ch).gammas k]
  rfl

lemma prod_rowDenominator (h : pre.Spec b next) (hc : b.Builds c)
    {σ : Equiv.Perm (Fin b.degree × Fin b.numRoutedWires)}
    (hσ : ∀ x, RoutedCircuit.wireAt (σ x) = next (RoutedCircuit.wireAt x))
    (ch : ℕ → GoldilocksField × GoldilocksField) (k : ℕ) :
    ∏ i ∈ Finset.range (2 ^ c.degreeBits),
        rowDenominator c (pre.inputs ch) (pre.columns wire) k i =
      prodAt (fun x : Fin b.degree × Fin b.numRoutedWires => wire x.1 x.2)
        ((pre.name ∘ RoutedCircuit.wireAt) ∘ σ) (ch k).1 (ch k).2 := by
  simp only [rowDenominator]
  rw [prod_rows_eq hc fun i j => (pre.columns wire).wire i j + (pre.inputs ch).betas k *
    (pre.columns wire).sigma i j + (pre.inputs ch).gammas k]
  refine Finset.prod_congr rfl fun x _ => ?_
  have hsigma := h.sigma_eq (RoutedCircuit.wireAt x) (RoutedCircuit.wireAt_mem x)
  rw [← hσ] at hsigma
  rw [Function.comp_apply, Function.comp_apply, ← hsigma]
  rfl

/-- A value that every wire shares with the next one is shared by connected wires. -/
lemma eq_of_connected (h : pre.Spec b next)
    (hnext : ∀ w ∈ b.routedWires, wire (next w).row (next w).column = wire w.row w.column)
    {u v : Wire} (hu : u ∈ b.routedWires) (hv : v ∈ b.routedWires)
    (huv : b.Connected u.target v.target) : wire u.row u.column = wire v.row v.column := by
  obtain ⟨n, rfl⟩ := (h.follows.orbit u hu v hv).mpr huv
  have hrun : ∀ n, next^[n] u ∈ b.routedWires ∧
      wire (next^[n] u).row (next^[n] u).column = wire u.row u.column := by
    intro n
    induction n with
    | zero => exact ⟨hu, rfl⟩
    | succ n ih =>
      rw [Function.iterate_succ_apply']
      exact ⟨h.follows.mem _ ih.1, (hnext _ ih.1).trans ih.2⟩
  exact (hrun n).2.symm

/-- The challenges of one round that let the products agree. -/
lemma card_round_le (h : pre.Spec b next) {u v : Wire} (hu : u ∈ b.routedWires)
    (hv : v ∈ b.routedWires) (huv : b.Connected u.target v.target)
    (hne : wire u.row u.column ≠ wire v.row v.column)
    {σ : Equiv.Perm (Fin b.degree × Fin b.numRoutedWires)}
    (hσ : ∀ x, RoutedCircuit.wireAt (σ x) = next (RoutedCircuit.wireAt x)) :
    (Finset.univ.filter fun ch : GoldilocksField × GoldilocksField =>
        prodAt (fun x : Fin b.degree × Fin b.numRoutedWires => wire x.1 x.2)
            (pre.name ∘ RoutedCircuit.wireAt) ch.1 ch.2 =
          prodAt (fun x : Fin b.degree × Fin b.numRoutedWires => wire x.1 x.2)
            ((pre.name ∘ RoutedCircuit.wireAt) ∘ σ) ch.1 ch.2).card ≤
      b.degree * b.numRoutedWires * goldilocksOrder := by
  have hinj : Function.Injective (pre.name ∘ RoutedCircuit.wireAt (b := b)) := by
    intro x y hxy
    exact RoutedCircuit.wireAt_injective
      (h.name_inj _ (RoutedCircuit.wireAt_mem x) _ (RoutedCircuit.wireAt_mem y) hxy)
  refine (card_prodAt_eq_le fun hpairs => hne ?_).trans ?_
  · refine h.eq_of_connected (fun w hw => ?_) hu hv huv
    obtain ⟨x, rfl⟩ := RoutedCircuit.exists_wireAt hw
    rw [← hσ]
    exact comp_eq_of_pairs_eq σ hinj hpairs x
  · rw [Fintype.card_prod, Fintype.card_fin, Fintype.card_fin, ZMod.card]

end PermutationPreprocessing.Spec

/-- The challenges of all rounds. -/
def roundChallenges {n : ℕ} (ch : Fin n → GoldilocksField × GoldilocksField) (k : ℕ) :
    GoldilocksField × GoldilocksField :=
  if h : k < n then ch ⟨k, h⟩ else (0, 0)

/-- When two wires that the copy constraints connect have different values, the columns `Z` and
partial products of a prover can pass the checks only for few of the challenges. -/
theorem RoutedCircuit.ncard_challenges_le {b : RoutedCircuit} {order : IntoValues}
    {pre : PermutationPreprocessing} (hpre : b.preprocess order = some pre) {c : CommonCircuitData}
    (hc : b.Builds c) (wire : ℕ → ℕ → GoldilocksField) {u v : Wire} (hu : u ∈ b.routedWires)
    (hv : v ∈ b.routedWires) (huv : b.Connected u.target v.target)
    (hne : wire u.row u.column ≠ wire v.row v.column) :
    {ch : Fin c.numChallenges → GoldilocksField × GoldilocksField | ∃ zs, ∀ k < c.numChallenges,
        c.PermutationHolds (pre.inputs (roundChallenges ch)) (pre.columns wire) zs k}.ncard ≤
      (b.degree * b.numRoutedWires * goldilocksOrder) ^ c.numChallenges := by
  obtain ⟨next, hspec⟩ := b.preprocess_spec hpre
  obtain ⟨σ, hσ⟩ := hspec.follows.exists_perm
  set bad := Finset.univ.filter fun ch : GoldilocksField × GoldilocksField =>
    GrandProduct.prodAt (fun x : Fin b.degree × Fin b.numRoutedWires => wire x.1 x.2)
        (pre.name ∘ wireAt) ch.1 ch.2 =
      GrandProduct.prodAt (fun x : Fin b.degree × Fin b.numRoutedWires => wire x.1 x.2)
        ((pre.name ∘ wireAt) ∘ σ) ch.1 ch.2 with hbad
  have hsub : {ch : Fin c.numChallenges → GoldilocksField × GoldilocksField | ∃ zs,
      ∀ k < c.numChallenges, c.PermutationHolds (pre.inputs (roundChallenges ch))
        (pre.columns wire) zs k} ⊆ ↑(Fintype.piFinset fun _ : Fin c.numChallenges => bad) := by
    rintro ch ⟨zs, hholds⟩
    rw [Finset.mem_coe, Fintype.mem_piFinset]
    intro k
    have hprod := (hholds k k.isLt).prod_eq
    rw [PermutationPreprocessing.Spec.prod_rowNumerator hc,
      hspec.prod_rowDenominator hc hσ] at hprod
    simpa [hbad, roundChallenges] using hprod
  calc _ ≤ (↑(Fintype.piFinset fun _ : Fin c.numChallenges => bad) :
        Set (Fin c.numChallenges → GoldilocksField × GoldilocksField)).ncard :=
      Set.ncard_le_ncard hsub (Finset.finite_toSet _)
    _ = bad.card ^ c.numChallenges := by
      rw [Set.ncard_coe_finset, Fintype.card_piFinset_const]
    _ ≤ _ := Nat.pow_le_pow_left (hspec.card_round_le hu hv huv hne hσ) _

/-! The standard sizes, with one copy constraint. -/

lemma sampleRouted : 80 ≤ 135 := by decide

lemma sampleRoutable : ∀ p ∈ [(Target.wire 0 0, Target.wire 1 1)],
    p.1.Routable 80 (2 ^ 12) 0 ∧ p.2.Routable 80 (2 ^ 12) 0 := by
  intro p hp
  cases List.mem_singleton.mp hp
  decide

def sampleBuilder : RoutedCircuit where
  numWires := 135
  numRoutedWires := 80
  degreeBits := 12
  virtualTargetIndex := 0
  copyConstraints := [(.wire 0 0, .wire 1 1)]
  routed_le := sampleRouted
  routable := sampleRoutable

/-- `into_values` in the order in which the keys were first used. -/
def insertionOrder : IntoValues := ⟨fun entries => entries.map Prod.snd, fun _ => .refl _⟩

lemma sampleBuilder_builds : sampleBuilder.Builds standardRecursion := ⟨rfl, rfl⟩

lemma exists_preprocess_sampleBuilder :
    ∃ pre, sampleBuilder.preprocess insertionOrder = some pre :=
  RoutedCircuit.exists_preprocess insertionOrder (by decide) (by decide)

/-- One in a witness and zero in the wire that it is copied to. -/
theorem ncard_challenges_le_sampleBuilder :
    ∃ pre, sampleBuilder.preprocess insertionOrder = some pre ∧
      {ch : Fin 2 → GoldilocksField × GoldilocksField | ∃ zs, ∀ k < 2,
        standardRecursion.PermutationHolds (pre.inputs (roundChallenges ch))
          (pre.columns fun row _ => if row = 0 then 1 else 0) zs k}.ncard ≤
        (2 ^ 12 * 80 * goldilocksOrder) ^ 2 := by
  obtain ⟨pre, hpre⟩ := exists_preprocess_sampleBuilder
  exact ⟨pre, hpre, RoutedCircuit.ncard_challenges_le hpre sampleBuilder_builds
    (fun row _ => if row = 0 then 1 else 0) (u := ⟨0, 0⟩) (v := ⟨1, 1⟩)
    (RoutedCircuit.mem_routedWires.mpr (by decide))
    (RoutedCircuit.mem_routedWires.mpr (by decide))
    (.rel _ _ (List.mem_singleton.mpr rfl)) (by decide)⟩

end MegaZK
