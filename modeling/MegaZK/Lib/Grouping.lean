import Mathlib.Data.List.Basic
import Mathlib.Data.List.Nodup
import Mathlib.Data.List.Perm.Basic

/-! # Grouping by a key

A map from keys to lists, as the list of its entries, and the loop that pushes each element of a
list to the entry of its key. -/

namespace Grouping

variable {κ α : Type*} [DecidableEq κ]

/-- Push an element to the entry of its key, which is empty before its first element. -/
def push (k : κ) (x : α) : List (κ × List α) → List (κ × List α)
  | [] => [(k, [x])]
  | (k', xs) :: rest => if k' = k then (k', xs ++ [x]) :: rest else (k', xs) :: push k x rest

/-- The entries hold the elements of `done`, each under its key, and no key occurs twice. -/
structure Groups (key : α → κ) (done : List α) (entries : List (κ × List α)) : Prop where
  perm : (entries.map Prod.snd).flatten.Perm done
  keyed : ∀ e ∈ entries, ∀ x ∈ e.2, key x = e.1
  nodup : (entries.map Prod.fst).Nodup

variable {key : α → κ} {done : List α} {entries : List (κ × List α)} {k : κ} {x : α}

lemma flatten_push : ((push k x entries).map Prod.snd).flatten.Perm
    ((entries.map Prod.snd).flatten ++ [x]) := by
  induction entries with
  | nil => simp [push]
  | cons e entries ih =>
    obtain ⟨k', xs⟩ := e
    rw [push]
    split_ifs
    · simp only [List.map_cons, List.flatten_cons, List.append_assoc]
      exact List.perm_append_comm.append_left xs
    · simp only [List.map_cons, List.flatten_cons, List.append_assoc]
      exact ih.append_left xs

lemma mem_push {e : κ × List α} (he : e ∈ push k x entries) :
    e ∈ entries ∨ e.1 = k ∧ ∀ y ∈ e.2, y = x ∨ ∃ xs, (k, xs) ∈ entries ∧ y ∈ xs := by
  induction entries with
  | nil =>
    cases List.mem_singleton.mp he
    exact .inr ⟨rfl, fun y hy => .inl (List.mem_singleton.mp hy)⟩
  | cons e' entries ih =>
    obtain ⟨k', xs⟩ := e'
    rw [push] at he
    split_ifs at he with hk
    · rcases List.mem_cons.mp he with rfl | he
      · refine .inr ⟨hk, fun y hy => ?_⟩
        rcases List.mem_append.mp hy with hy | hy
        · exact .inr ⟨xs, by simp [hk], hy⟩
        · exact .inl (List.mem_singleton.mp hy)
      · exact .inl (List.mem_cons_of_mem _ he)
    · rcases List.mem_cons.mp he with rfl | he
      · exact .inl (List.mem_cons_self ..)
      · refine (ih he).imp (List.mem_cons_of_mem _) fun ⟨hek, h⟩ => ⟨hek, fun y hy => ?_⟩
        exact (h y hy).imp_right fun ⟨zs, hmem, hyz⟩ => ⟨zs, List.mem_cons_of_mem _ hmem, hyz⟩

lemma fst_push : (push k x entries).map Prod.fst =
    if k ∈ entries.map Prod.fst then entries.map Prod.fst else entries.map Prod.fst ++ [k] := by
  induction entries with
  | nil => simp [push]
  | cons e entries ih =>
    obtain ⟨k', xs⟩ := e
    rw [push]
    by_cases hk : k' = k
    · simp [hk]
    · rw [if_neg hk, List.map_cons, ih]
      by_cases hmem : k ∈ entries.map Prod.fst
      · simp [hmem]
      · simp [hmem, Ne.symm hk]

lemma Groups.push (h : Groups key done entries) (x : α) :
    Groups key (done ++ [x]) (push (key x) x entries) := by
  refine ⟨flatten_push.trans (h.perm.append_right [x]), ?_, ?_⟩
  · intro e he y hy
    rcases mem_push he with he | ⟨hk, hall⟩
    · exact h.keyed e he y hy
    · rcases hall y hy with rfl | ⟨xs, hxs, hyx⟩
      · exact hk.symm
      · exact (h.keyed _ hxs y hyx).trans hk.symm
  · rw [fst_push]
    split_ifs with hmem
    · exact h.nodup
    · exact h.nodup.append (List.nodup_singleton _) (by simpa using hmem)

/-- The loop over all elements. -/
lemma groups_foldl (key : α → κ) (l : List α) :
    Groups key l (l.foldl (fun entries x => Grouping.push (key x) x entries) []) := by
  have hrun : ∀ (l done : List α) (entries : List (κ × List α)), Groups key done entries →
      Groups key (done ++ l) (l.foldl (fun entries x => Grouping.push (key x) x entries) entries) := by
    intro l
    induction l with
    | nil =>
      intro done entries h
      rwa [List.append_nil]
    | cons x l ih =>
      intro done entries h
      rw [List.foldl_cons, List.append_cons]
      exact ih _ _ (h.push x)
  simpa using hrun l [] [] ⟨.refl _, by simp, by simp⟩

omit [DecidableEq κ] in
/-- The elements of a group are those with one key. -/
lemma Groups.mem_iff (h : Groups key done entries) {l : List α} (hl : l ∈ entries.map Prod.snd)
    {y : α} (hx : x ∈ l) (hy : y ∈ done) : y ∈ l ↔ key x = key y := by
  obtain ⟨e, he, rfl⟩ := List.mem_map.mp hl
  rw [h.keyed e he x hx]
  constructor
  · intro hye
    exact (h.keyed e he y hye).symm
  · intro heq
    obtain ⟨l', hl', hyl⟩ := List.mem_flatten.mp (h.perm.mem_iff.mpr hy)
    obtain ⟨e', he', rfl⟩ := List.mem_map.mp hl'
    have hfst : e'.1 = e.1 := (h.keyed e' he' y hyl).symm.trans heq.symm
    rwa [← List.inj_on_of_nodup_map h.nodup he' he hfst]

end Grouping
