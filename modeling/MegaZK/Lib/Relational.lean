import Mathlib.Logic.Basic
import Mathlib.Tactic.Common

/-! # Relational triples for stateful computations

Two computations over different states that return the same value and keep the states related,
with the rules to compose such facts along a program. -/

namespace Relational

variable {σ τ α β : Type}

/-- From related states, `x` and `y` return the same value and end in related states. -/
def Triple (P : σ → τ → Prop) (x : StateM σ α) (y : StateM τ α) (Q : σ → τ → Prop) : Prop :=
  ∀ s t, P s t → (x.run s).run.1 = (y.run t).run.1 ∧ Q (x.run s).run.2 (y.run t).run.2

variable {P P' Q Q' R : σ → τ → Prop}

lemma Triple.pure (a : α) : Triple P (pure a : StateM σ α) (pure a : StateM τ α) P :=
  fun _ _ h => ⟨rfl, h⟩

lemma Triple.bind {x : StateM σ α} {y : StateM τ α} {f : α → StateM σ β} {g : α → StateM τ β}
    (hx : Triple P x y Q) (hf : ∀ a, Triple Q (f a) (g a) R) :
    Triple P (x >>= f) (y >>= g) R := by
  intro s t h
  obtain ⟨hval, hst⟩ := hx s t h
  have hrest := hf (x.run s).run.1 _ _ hst
  change ((f (x.run s).run.1).run (x.run s).run.2).run.1 =
      ((g (y.run t).run.1).run (y.run t).run.2).run.1 ∧
    R ((f (x.run s).run.1).run (x.run s).run.2).run.2
      ((g (y.run t).run.1).run (y.run t).run.2).run.2
  rw [← hval]
  exact hrest

/-- Weaken the postcondition. -/
lemma Triple.post {x : StateM σ α} {y : StateM τ α} (hx : Triple P x y Q)
    (hQ : ∀ s t, Q s t → Q' s t) : Triple P x y Q' := by
  intro s t h
  obtain ⟨hval, hst⟩ := hx s t h
  exact ⟨hval, hQ _ _ hst⟩

end Relational
