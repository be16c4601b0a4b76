import Mathlib.Data.List.Basic
import Mathlib.Tactic.Common

/-! # Folds that may fail

Loops over a list that stop at the first error, and the rule for them: an invariant of the
processed prefix, with the condition under which the next element goes through. -/

namespace Fold

variable {ε α β σ τ : Type*}

/-- A loop over steps that all succeed. -/
lemma mapM_eq_some_map {l : List α} {f : α → Option β} {g : α → β}
    (h : ∀ x ∈ l, f x = some (g x)) : l.mapM f = some (l.map g) := by
  induction l with
  | nil => rfl
  | cons x l ih =>
    rw [List.mapM_cons, h x (List.mem_cons_self ..), ih fun y hy => h y (List.mem_cons_of_mem _ hy)]
    rfl

/-- A loop whose steps succeed with those of another one. -/
lemma mapM_map_of_mapM {γ : Type*} {l : List α} {f : α → Option β} {g : α → Option γ} {φ : β → γ}
    (h : ∀ x y, f x = some y → g x = some (φ y)) {ys : List β} (hl : l.mapM f = some ys) :
    l.mapM g = some (ys.map φ) := by
  induction l generalizing ys with
  | nil =>
    cases hl
    rfl
  | cons x l ih =>
    rw [List.mapM_cons] at hl
    obtain ⟨y, hx, hl⟩ := Option.bind_eq_some_iff.mp hl
    obtain ⟨ys', hl', hl⟩ := Option.bind_eq_some_iff.mp hl
    cases hl
    rw [List.mapM_cons, h x y hx, ih hl']
    rfl

/-- Every result is the result of an element. -/
lemma exists_of_mapM_eq_some {l : List α} {f : α → Option β} {ys : List β}
    (h : l.mapM f = some ys) {y : β} (hy : y ∈ ys) : ∃ x ∈ l, f x = some y := by
  induction l generalizing ys with
  | nil =>
    cases h
    cases hy
  | cons x l ih =>
    rw [List.mapM_cons] at h
    obtain ⟨y', hx, h⟩ := Option.bind_eq_some_iff.mp h
    obtain ⟨ys', hl, h⟩ := Option.bind_eq_some_iff.mp h
    cases h
    rcases List.mem_cons.mp hy with rfl | hy
    · exact ⟨x, List.mem_cons_self .., hx⟩
    · obtain ⟨x', hx', hy⟩ := ih hl hy
      exact ⟨x', List.mem_cons_of_mem _ hx', hy⟩

/-- Every element has a result. -/
lemma exists_result_of_mapM_eq_some {l : List α} {f : α → Option β} {ys : List β}
    (h : l.mapM f = some ys) {x : α} (hx : x ∈ l) : ∃ y ∈ ys, f x = some y := by
  induction l generalizing ys with
  | nil => cases hx
  | cons x' l ih =>
    rw [List.mapM_cons] at h
    obtain ⟨y, hy, h⟩ := Option.bind_eq_some_iff.mp h
    obtain ⟨ys', hl, h⟩ := Option.bind_eq_some_iff.mp h
    cases h
    rcases List.mem_cons.mp hx with rfl | hx
    · exact ⟨y, List.mem_cons_self .., hy⟩
    · obtain ⟨y', hy', hx⟩ := ih hl hx
      exact ⟨y', List.mem_cons_of_mem _ hy', hx⟩

/-- A loop over steps that all succeed has results. -/
lemma exists_mapM_eq_some {l : List α} {f : α → Option β} (h : ∀ x ∈ l, ∃ y, f x = some y) :
    ∃ ys, l.mapM f = some ys := by
  induction l with
  | nil => exact ⟨[], rfl⟩
  | cons x l ih =>
    obtain ⟨y, hx⟩ := h x (List.mem_cons_self ..)
    obtain ⟨ys, hl⟩ := ih fun x' hx' => h x' (List.mem_cons_of_mem _ hx')
    refine ⟨y :: ys, ?_⟩
    rw [List.mapM_cons, hx, hl]
    rfl

/-- The results are in the order of the elements. -/
lemma eq_some_of_mem_zip {l : List α} {f : α → Option β} {ys : List β} (h : l.mapM f = some ys)
    {x : α} {y : β} (hxy : (x, y) ∈ l.zip ys) : f x = some y := by
  induction l generalizing ys with
  | nil => cases hxy
  | cons x' l ih =>
    rw [List.mapM_cons] at h
    obtain ⟨y', hy', h⟩ := Option.bind_eq_some_iff.mp h
    obtain ⟨ys', hl, h⟩ := Option.bind_eq_some_iff.mp h
    cases h
    rcases List.mem_cons.mp hxy with heq | hxy
    · cases heq
      exact hy'
    · exact ih hl hxy

lemma length_of_mapM_eq_some {l : List α} {f : α → Option β} {ys : List β}
    (h : l.mapM f = some ys) : ys.length = l.length := by
  induction l generalizing ys with
  | nil =>
    cases h
    rfl
  | cons x l ih =>
    rw [List.mapM_cons] at h
    obtain ⟨y, -, h⟩ := Option.bind_eq_some_iff.mp h
    obtain ⟨ys', hl, h⟩ := Option.bind_eq_some_iff.mp h
    cases h
    rw [List.length_cons, ih hl, List.length_cons]

/-- A fold over steps that all succeed. -/
lemma foldlM_eq_some_foldl {l : List α} {f : σ → α → Option σ} {g : σ → α → σ}
    (h : ∀ s, ∀ x ∈ l, f s x = some (g s x)) (s : σ) : l.foldlM f s = some (l.foldl g s) := by
  induction l generalizing s with
  | nil => rfl
  | cons x l ih =>
    rw [List.foldlM_cons, h s x (List.mem_cons_self ..), Option.bind_eq_bind, Option.bind_some,
      List.foldl_cons]
    exact ih (fun s y hy => h s y (List.mem_cons_of_mem _ hy)) _

/-- What every step preserves, the loop preserves. -/
lemma foldlM_some_of_preserved {f : σ → α → Option σ} (P : σ → Prop)
    (h : ∀ s x s', f s x = some s' → P s → P s') {l : List α} {s s' : σ}
    (hrun : l.foldlM f s = some s') (hs : P s) : P s' := by
  induction l generalizing s with
  | nil =>
    cases hrun
    exact hs
  | cons x l ih =>
    rw [List.foldlM_cons] at hrun
    obtain ⟨s₁, hx, hrun⟩ := Option.bind_eq_some_iff.mp hrun
    exact ih hrun (h s x s₁ hx hs)

/-- A loop commutes with a map of states that its steps commute with. -/
lemma foldlM_hom (φ : σ → τ) {f : σ → α → Except ε σ} {g : τ → α → Except ε τ}
    (h : ∀ s x, g (φ s) x = (f s x).map φ) (l : List α) (s : σ) :
    l.foldlM g (φ s) = (l.foldlM f s).map φ := by
  induction l generalizing s with
  | nil => rfl
  | cons x l ih =>
    rw [List.foldlM_cons, List.foldlM_cons, h]
    cases f s x with
    | error e => rfl
    | ok s' => exact ih s'

/-- A loop over a concatenation is a loop of loops. -/
lemma foldlM_flatMap (f : β → List α) (g : σ → α → Except ε σ) (l : List β) (s : σ) :
    (l.flatMap f).foldlM g s = l.foldlM (fun s b => (f b).foldlM g s) s := by
  induction l generalizing s with
  | nil => rfl
  | cons b l ih =>
    rw [List.flatMap_cons, List.foldlM_append, List.foldlM_cons]
    cases (f b).foldlM g s with
    | error e => rfl
    | ok s' => exact ih s'

/-- A loop fails only with an error of one of its steps. -/
lemma foldlM_error {f : σ → α → Except ε σ} (P : ε → Prop)
    (h : ∀ s x e, f s x = .error e → P e) {l : List α} {s : σ} {e : ε}
    (hrun : l.foldlM f s = .error e) : P e := by
  induction l generalizing s with
  | nil => cases hrun
  | cons x l ih =>
    rw [List.foldlM_cons] at hrun
    cases hx : f s x with
    | error e' =>
      rw [hx] at hrun
      cases hrun
      exact h s x e hx
    | ok s' =>
      rw [hx] at hrun
      exact ih hrun

/-- The rule for loops. `P done s` holds of the state after the elements `done`, and `ok done x`
says when `x` goes through after them. -/
theorem foldlM_rule {f : σ → α → Except ε σ} (P : List α → σ → Prop) (ok : List α → α → Prop)
    (hok : ∀ done s x, P done s → ((∃ s', f s x = .ok s') ↔ ok done x))
    (hstep : ∀ done s x s', P done s → f s x = .ok s' → P (done ++ [x]) s')
    (l : List α) {d : List α} {s : σ} (hs : P d s) :
    ((∃ s', l.foldlM f s = .ok s') ↔ ∀ pre x post, l = pre ++ x :: post → ok (d ++ pre) x) ∧
      ∀ s', l.foldlM f s = .ok s' → P (d ++ l) s' := by
  induction l generalizing d s with
  | nil =>
    refine ⟨⟨fun _ pre x post h => by simp at h, fun _ => ⟨s, rfl⟩⟩, ?_⟩
    rintro s' ⟨⟩
    simpa using hs
  | cons x l ih =>
    rw [List.foldlM_cons]
    cases hx : f s x with
    | error e =>
      refine ⟨⟨?_, fun h => ?_⟩, ?_⟩
      · rintro ⟨s', ⟨⟩⟩
      · -- the first element does not go through
        have hnone : ok d x := by simpa using h [] x l rfl
        obtain ⟨s', hs'⟩ := (hok d s x hs).mpr hnone
        rw [hx] at hs'
        cases hs'
      · rintro s' ⟨⟩
    | ok s₁ =>
      obtain ⟨hiff, hinv⟩ := ih (hstep d s x s₁ hs hx)
      refine ⟨⟨?_, ?_⟩, ?_⟩
      · intro hrun pre y post heq
        cases pre with
        | nil =>
          obtain ⟨rfl, rfl⟩ := List.cons.inj heq
          simpa using (hok d s x hs).mp ⟨s₁, hx⟩
        | cons z pre =>
          obtain ⟨rfl, rfl⟩ := List.cons.inj heq
          simpa using hiff.mp hrun pre y post rfl
      · intro h
        refine hiff.mpr fun pre y post heq => ?_
        simpa using h (x :: pre) y post (by rw [heq]; rfl)
      · intro s' hrun
        simpa using hinv s' hrun

end Fold
