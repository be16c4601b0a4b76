import MegaZK.Goldilocks
import MegaZK.Poseidon.Permutation

/-! # The permutation on words

The host's permutation over the base field as a function of lists of canonical words, which
evaluates: every round is reduced before the next one reads it. -/

namespace MegaZK.Poseidon

/-- Evaluate a number before it is used. -/
def forceNat {α : Type} (x : ℕ) (k : ℕ → α) : α := Nat.rec (k 0) (fun n _ => k (n + 1)) x

/-- Evaluate the words of a list before they are used. -/
def forceList {α : Type} : List ℕ → (List ℕ → α) → α
  | [], k => k []
  | x :: l, k => forceNat x fun x => forceList l fun l => k (x :: l)

@[simp] lemma forceNat_eq {α : Type} (x : ℕ) (k : ℕ → α) : forceNat x k = k x := by
  cases x with
  | zero => rfl
  | succ n => rfl

@[simp] lemma forceList_eq {α : Type} (l : List ℕ) (k : List ℕ → α) : forceList l k = k l := by
  induction l generalizing k with
  | nil => rfl
  | cons x l ih => simp [forceList, ih]

/-- The round constants of the host. -/
def hostRoundConstants (round : ℕ) (i : Fin 12) : ZMod goldilocksOrder :=
  (allRoundConstants.getD (i + 12 * round) 0 : ℕ)

/-- The state that a list of words stands for. -/
def ofWords (l : List ℕ) : State (ZMod goldilocksOrder) := fun i => (l.getD i 0 : ℕ)

lemma ofWords_ofFn (f : Fin 12 → ℕ) : ofWords (List.ofFn f) = fun i => (f i : ZMod goldilocksOrder) := by
  funext i
  rw [ofWords, List.getD_eq_getElem _ _ (by simp), List.getElem_ofFn]

/-- A full round on words. -/
def fullRoundWords (roundCtr : ℕ) (l : List ℕ) : List ℕ :=
  forceList (List.ofFn fun i : Fin 12 =>
    (l.getD i 0 + allRoundConstants.getD (i + 12 * roundCtr) 0) ^ 7 % goldilocksOrder) fun t =>
  List.ofFn fun r : Fin 12 => ((List.ofFn fun i : Fin 12 =>
    t.getD (i + r : Fin 12) 0 * mdsMatrixCirc.getD i 0).sum + t.getD r 0 * mdsMatrixDiag.getD r 0) %
      goldilocksOrder

/-- The first layers of the partial rounds on words. -/
def partialInitWords (l : List ℕ) : List ℕ :=
  forceList (List.ofFn fun i : Fin 12 => l.getD i 0 + fastPartialFirstRoundConstant.getD i 0)
    fun t => t.getD 0 0 :: List.ofFn fun c : Fin 11 => (List.ofFn fun r : Fin 11 =>
      t.getD (r + 1) 0 * entry fastPartialRoundInitialMatrix r c).sum % goldilocksOrder

/-- A partial round on words. -/
def partialRoundWords (i : ℕ) (l : List ℕ) : List ℕ :=
  forceNat ((l.getD 0 0 ^ 7 + fastPartialRoundConstants.getD i 0) % goldilocksOrder) fun s =>
  (((List.ofFn fun j : Fin 11 => l.getD (j + 1) 0 * entry fastPartialRoundWHats i j).sum +
      s * (mdsMatrixCirc.getD 0 0 + mdsMatrixDiag.getD 0 0)) % goldilocksOrder) ::
    List.ofFn fun j : Fin 11 =>
      (l.getD (j + 1) 0 + s * entry fastPartialRoundVs i j) % goldilocksOrder

/-- Some rounds of a kind, from round `r` on. -/
def iterateWords (round : ℕ → List ℕ → List ℕ) : ℕ → ℕ → List ℕ → List ℕ
  | 0, _, l => l
  | n + 1, r, l => forceList (round r l) fun l => iterateWords round n (r + 1) l

/-- The permutation on words. -/
def poseidonWords (l : List ℕ) : List ℕ :=
  iterateWords fullRoundWords 4 26 (iterateWords partialRoundWords 22 0
    (partialInitWords (iterateWords fullRoundWords 4 0 l)))

/-! ### The words stand for the permutation -/

lemma natCast_mod_order (x : ℕ) : ((x % goldilocksOrder : ℕ) : ZMod goldilocksOrder) = x :=
  ZMod.natCast_mod x goldilocksOrder

lemma ofWords_apply (l : List ℕ) (i : Fin 12) :
    ((l.getD i 0 : ℕ) : ZMod goldilocksOrder) = ofWords l i := rfl

lemma ofWords_succ (l : List ℕ) (i : Fin 11) :
    ((l.getD (i + 1) 0 : ℕ) : ZMod goldilocksOrder) = ofWords l i.succ := rfl

lemma ofWords_fullRoundWords (roundCtr : ℕ) (l : List ℕ) :
    ofWords (fullRoundWords roundCtr l) =
      mdsLayer (sboxLayer (constantLayer hostRoundConstants (ofWords l) roundCtr)) := by
  have hsbox : ofWords (List.ofFn fun i : Fin 12 =>
      (l.getD i 0 + allRoundConstants.getD (i + 12 * roundCtr) 0) ^ 7 % goldilocksOrder) =
        sboxLayer (constantLayer hostRoundConstants (ofWords l) roundCtr) := by
    rw [ofWords_ofFn]
    funext i
    rw [natCast_mod_order, Nat.cast_pow, Nat.cast_add, ofWords_apply, sboxLayer, sboxMonomial,
      constantLayer, hostRoundConstants]
    ring
  rw [fullRoundWords, forceList_eq, ofWords_ofFn, ← hsbox]
  funext r
  rw [natCast_mod_order, List.sum_ofFn, Nat.cast_add, Nat.cast_sum, mdsLayer, mdsRowShf]
  simp only [Nat.cast_mul, ofWords_apply]

lemma ofWords_cons_ofFn (x : ℕ) (f : Fin 11 → ℕ) :
    ofWords (x :: List.ofFn f) =
      Fin.cons (x : ZMod goldilocksOrder) fun i => (f i : ZMod goldilocksOrder) := by
  rw [← List.ofFn_cons, ofWords_ofFn]
  funext i
  refine Fin.cases rfl (fun j => ?_) i
  simp only [Fin.cons_succ]

lemma ofWords_partialInitWords (l : List ℕ) :
    ofWords (partialInitWords l) = mdsPartialLayerInit (partialFirstConstantLayer (ofWords l)) := by
  have hconstant : ofWords (List.ofFn fun i : Fin 12 =>
      l.getD i 0 + fastPartialFirstRoundConstant.getD i 0) =
        partialFirstConstantLayer (ofWords l) := by
    rw [ofWords_ofFn]
    funext i
    rw [Nat.cast_add, ofWords_apply, partialFirstConstantLayer]
  rw [partialInitWords, forceList_eq, ofWords_cons_ofFn, ← hconstant, mdsPartialLayerInit]
  refine congrArg₂ Fin.cons rfl (funext fun c => ?_)
  rw [natCast_mod_order, List.sum_ofFn, Nat.cast_sum]
  simp only [Nat.cast_mul, ofWords_succ]

lemma ofWords_partialRoundWords (i : ℕ) (l : List ℕ) :
    ofWords (partialRoundWords i l) = mdsPartialLayerFast (partialSbox (ofWords l) i) i := by
  have hsbox : (((l.getD 0 0 ^ 7 + fastPartialRoundConstants.getD i 0) % goldilocksOrder : ℕ) :
      ZMod goldilocksOrder) =
        sboxMonomial (ofWords l 0) + (fastPartialRoundConstants.getD i 0 : ℕ) := by
    rw [natCast_mod_order, Nat.cast_add, Nat.cast_pow, sboxMonomial]
    change ofWords l 0 ^ 7 + _ = _
    ring
  rw [partialRoundWords, forceNat_eq, ofWords_cons_ofFn, mdsPartialLayerFast]
  refine congrArg₂ Fin.cons ?_ (funext fun j => ?_)
  · rw [natCast_mod_order, Nat.cast_add, List.sum_ofFn, Nat.cast_sum, Nat.cast_mul, hsbox]
    simp only [Nat.cast_mul, ofWords_succ]
    rfl
  · rw [natCast_mod_order, Nat.cast_add, Nat.cast_mul, hsbox, ofWords_succ]
    rfl

lemma ofWords_iterate_fullRoundWords (n r : ℕ) (l : List ℕ) :
    ofWords (iterateWords fullRoundWords n r l) = fullRounds hostRoundConstants n (ofWords l) r := by
  induction n generalizing r l with
  | zero => rfl
  | succ n ih => rw [iterateWords, forceList_eq, ih, ofWords_fullRoundWords, fullRounds]

lemma ofWords_iterate_partialRoundWords (n r : ℕ) (l : List ℕ) :
    ofWords (iterateWords partialRoundWords n r l) = partialRoundsFrom n r (ofWords l) := by
  induction n generalizing r l with
  | zero => rfl
  | succ n ih => rw [iterateWords, forceList_eq, ih, ofWords_partialRoundWords, partialRoundsFrom]

theorem ofWords_poseidonWords (l : List ℕ) :
    ofWords (poseidonWords l) = poseidon hostRoundConstants (ofWords l) := by
  rw [poseidonWords, ofWords_iterate_fullRoundWords, ofWords_iterate_partialRoundWords,
    ofWords_partialInitWords, ofWords_iterate_fullRoundWords]
  rfl

example : poseidonWords (List.replicate 12 0) =
    [0x3c18a9786cb0b359, 0xc4055e3364a246c3, 0x7953db0ab48808f4, 0xc71603f33a1144ca,
    0xd7709673896996dc, 0x46a84e87642f44ed, 0xd032648251ee0b3c, 0x1c687363b207df62,
    0xdf8565563e8045fe, 0x40f5b37ff4254dae, 0xd070f637b431067c, 0x1792b1c4342109d7] := by
  decide +kernel

end MegaZK.Poseidon
