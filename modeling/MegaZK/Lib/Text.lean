import Mathlib.Data.List.Basic
import Mathlib.Data.List.Infix
import Mathlib.Data.List.DropRight
import Mathlib.Tactic.Common

/-! # Searching and parsing text

Substring search in lists, and decimal numbers with a bound. A pattern is found behind a text that is
clear of it: one with no position at which an occurrence could begin, whatever comes after the
text. -/

namespace Text

section Search

variable {α : Type*} {pat a b : List α}

/-- No occurrence of `pat` begins in `a`, whatever `a` is followed by. -/
def Clear (pat a : List α) : Prop := ∀ t ∈ a.tails, t ≠ [] → ¬ t <+: pat ∧ ¬ pat <+: t

lemma Clear.tail {c : α} (h : Clear pat (c :: a)) : Clear pat a :=
  fun t ht => h t (by rw [List.tails_cons]; exact List.mem_cons_of_mem _ ht)

lemma Clear.not_prefix {c : α} (h : Clear pat (c :: a)) (b : List α) : ¬ pat <+: c :: a ++ b := by
  intro hpat
  have hclear := h (c :: a) (by simp) (List.cons_ne_nil _ _)
  obtain hlong | hshort := List.prefix_or_prefix_of_prefix hpat (List.prefix_append (c :: a) b)
  · exact hclear.2 hlong
  · exact hclear.1 hshort

lemma Clear.append (ha : Clear pat a) (hb : Clear pat b) : Clear pat (a ++ b) := by
  induction a with
  | nil => exact hb
  | cons c a ih =>
    intro t ht hne
    rw [List.cons_append, List.tails_cons, List.mem_cons] at ht
    obtain rfl | ht := ht
    · refine ⟨fun hpre => ?_, ha.not_prefix b⟩
      exact (ha (c :: a) (by simp) (List.cons_ne_nil _ _)).1
        ((List.prefix_append (c :: a) b).trans hpre)
    · exact ih ha.tail t ht hne

/-- A text without the first character of the pattern. -/
lemma clear_of_notMem {c : α} {pat : List α} (h : c ∉ a) : Clear (c :: pat) a := by
  intro t ht hne
  obtain ⟨d, t, rfl⟩ := List.exists_cons_of_ne_nil hne
  have hd : d ∈ a := ((List.mem_tails _ _).mp ht).mem (List.mem_cons_self ..)
  constructor
  · intro hpre
    rw [(List.cons_prefix_cons.mp hpre).1] at hd
    exact h hd
  · intro hpre
    rw [← (List.cons_prefix_cons.mp hpre).1] at hd
    exact h hd

variable [DecidableEq α]

instance : Decidable (Clear pat a) :=
  inferInstanceAs (Decidable (∀ t ∈ a.tails, t ≠ [] → ¬ t <+: pat ∧ ¬ pat <+: t))

/-- The position of the first occurrence of `pat`. -/
def find (pat : List α) : List α → Option ℕ
  | [] => if pat <+: [] then some 0 else none
  | c :: s => if pat <+: c :: s then some 0 else (find pat s).map (· + 1)

lemma find_append (h : Clear pat a) (b : List α) :
    find pat (a ++ b) = (find pat b).map (· + a.length) := by
  induction a with
  | nil => simp
  | cons c a ih =>
    have hnot : ¬ pat <+: c :: (a ++ b) := h.not_prefix b
    rw [List.cons_append, find, if_neg hnot, ih h.tail, Option.map_map]
    congr 1

lemma find_self (pat b : List α) : find pat (pat ++ b) = some 0 := by
  cases hs : pat ++ b with
  | nil =>
    rw [(List.append_eq_nil_iff.mp hs).1]
    rfl
  | cons c s => rw [find, if_pos (hs ▸ List.prefix_append pat b)]

lemma find_append_self (h : Clear pat a) (b : List α) :
    find pat (a ++ (pat ++ b)) = some a.length := by
  rw [find_append h, find_self, Option.map_some, Nat.zero_add]

end Search

/-! ### White space -/

/-- `char::is_whitespace`. -/
def isWhitespace (c : Char) : Bool :=
  c.toNat ∈ [0x20, 0x85, 0xA0, 0x1680, 0x2028, 0x2029, 0x202F, 0x205F, 0x3000] ||
    (0x09 ≤ c.toNat && c.toNat ≤ 0x0D) || (0x2000 ≤ c.toNat && c.toNat ≤ 0x200A)

/-- `str::trim`. -/
def trim (s : List Char) : List Char := (s.dropWhile isWhitespace).rdropWhile isWhitespace

lemma isWhitespace_eq_false {c : Char} (h : c.isDigit) : isWhitespace c = false := by
  have hc : 48 ≤ c.toNat ∧ c.toNat ≤ 57 := by
    simpa [Char.isDigit, UInt32.le_iff_toNat_le] using h
  simp only [isWhitespace, List.mem_cons, List.not_mem_nil, or_false, Bool.or_eq_false_iff,
    decide_eq_false_iff_not, Bool.and_eq_false_iff]
  omega

/-- Trimming leaves a number between spaces. -/
lemma trim_append {l s r : List Char} (hl : ∀ c ∈ l, isWhitespace c) (hs : ∀ c ∈ s, c.isDigit)
    (hr : ∀ c ∈ r, isWhitespace c) : trim (l ++ (s ++ r)) = s := by
  have hkeep : ∀ t : List Char, (∀ c ∈ t, c.isDigit) → t.dropWhile isWhitespace = t := by
    intro t ht
    cases t with
    | nil => rfl
    | cons c t =>
      refine List.dropWhile_cons_of_neg ?_
      simp [isWhitespace_eq_false (ht c (List.mem_cons_self ..))]
  rw [trim, List.dropWhile_append_of_pos hl, List.rdropWhile]
  cases s with
  | nil => simp [List.dropWhile_eq_nil_iff.mpr hr]
  | cons c s =>
    have hc := isWhitespace_eq_false (hs c (List.mem_cons_self ..))
    have hrev : ∀ d ∈ (c :: s).reverse, d.isDigit := fun d hd => hs d (List.mem_reverse.mp hd)
    rw [List.cons_append, List.dropWhile_cons_of_neg (by simp [hc]), ← List.cons_append,
      List.reverse_append, List.dropWhile_append_of_pos (fun d hd => hr d (List.mem_reverse.mp hd)),
      hkeep _ hrev, List.reverse_reverse]

/-! ### Numbers -/

/-- One more digit, checked against the bound. -/
def pushDigit (bound n : ℕ) (c : Char) : Option ℕ :=
  let next := 10 * n + (c.toNat - '0'.toNat)
  if c.isDigit ∧ next < bound then some next else none

/-- `str::parse` of an unsigned number below `bound`: digits with an optional plus sign, and an
error once the bound is reached. -/
def parse (bound : ℕ) : List Char → Option ℕ
  | [] => none
  | '+' :: c :: s => (c :: s).foldlM (pushDigit bound) 0
  | c :: s => (c :: s).foldlM (pushDigit bound) 0

lemma le_ofDigitChars (s : List Char) (n : ℕ) : n ≤ Nat.ofDigitChars 10 s n := by
  induction s generalizing n with
  | nil => simp
  | cons c s ih =>
    rw [Nat.ofDigitChars_cons]
    exact le_trans (by omega) (ih _)

lemma foldlM_pushDigit {bound : ℕ} {s : List Char} (h : ∀ c ∈ s, c.isDigit) {n : ℕ}
    (hn : n < bound) : s.foldlM (pushDigit bound) n =
      if Nat.ofDigitChars 10 s n < bound then some (Nat.ofDigitChars 10 s n) else none := by
  induction s generalizing n with
  | nil => simp [hn]
  | cons c s ih =>
    have hc : c.isDigit := h c (List.mem_cons_self ..)
    rw [List.foldlM_cons, Nat.ofDigitChars_cons, pushDigit]
    by_cases hnext : 10 * n + (c.toNat - '0'.toNat) < bound
    · rw [if_pos ⟨hc, hnext⟩]
      exact ih (fun d hd => h d (List.mem_cons_of_mem _ hd)) hnext
    · have hle := le_ofDigitChars s (10 * n + (c.toNat - '0'.toNat))
      rw [if_neg fun hand => hnext hand.2, if_neg (by omega)]
      rfl

lemma isDigit_of_mem_toDigits {n : ℕ} {c : Char} (h : c ∈ Nat.toDigits 10 n) : c.isDigit :=
  Nat.isDigit_of_mem_toDigits (by decide) (by decide) h

lemma notMem_toDigits {n : ℕ} {c : Char} (h : c.isDigit = false) : c ∉ Nat.toDigits 10 n := by
  intro hc
  rw [isDigit_of_mem_toDigits hc] at h
  cases h

/-- What is parsed is what was printed, if it is below the bound. -/
lemma parse_toDigits {bound n : ℕ} (hbound : 0 < bound) :
    parse bound (Nat.toDigits 10 n) = if n < bound then some n else none := by
  have hfold := foldlM_pushDigit (fun c hc => isDigit_of_mem_toDigits (n := n) hc) hbound
  rw [Nat.ofDigitChars_ten_toDigits] at hfold
  have hparse : ∀ s : List Char, s ≠ [] → '+' ∉ s →
      parse bound s = s.foldlM (pushDigit bound) 0 := by
    intro s hne hplus
    cases s with
    | nil => exact absurd rfl hne
    | cons c s =>
      refine parse.eq_3 _ _ _ ?_
      rintro d t rfl -
      exact hplus (List.mem_cons_self ..)
  rw [hparse _ Nat.toDigits_ne_nil (notMem_toDigits rfl), hfold]

end Text
