import Libhbk.Strings.Split
import Mathlib.Data.List.DropRight

/-!
# Trimming

`trim_copy` cuts the part between the first and the last character that is not white space. `trim` erases in place,
first on the left, then on the right. A text without any other character is a special case of `trim_right`, which
looks at its `front()`. `TrimRight` keeps which strings `front()` was evaluated on.
-/

namespace Libhbk.Strings

/-- Default whitespace characters -/
def trimWs : List Char := " \t\n\r\x0c\x0b".toList

def isWs (c : Char) : Bool := trimWs.contains c

/-- `text.find_first_not_of(..)` -/
def findFirstNotOf (text : List Char) (matching : Char → Bool) : Option Nat :=
  text.findIdx? fun c => !matching c

/-- `text.find_last_not_of(..)` -/
def findLastNotOf (text : List Char) (matching : Char → Bool) : Option Nat :=
  (findFirstNotOf text.reverse matching).map fun i => text.length - 1 - i

/-- `text.erase(0, n)` -/
def eraseFront (text : List Char) : Option Nat → List Char
  | none => []
  | some n => text.drop n

/-- `text.front()`, with the terminating NUL where there is no character. -/
def front : List Char → Char
  | [] => '\x00'
  | c :: _ => c

def trimCopy (text : List Char) : List Char :=
  match findFirstNotOf text isWs with
  | none => []
  | some start => substr text start ((findLastNotOf text isWs).map fun last => last - start + 1)

/-- Both left trims. -/
def trimLeftWith (matching : Char → Bool) (text : List Char) : List Char :=
  eraseFront text (findFirstNotOf text matching)

def trimLeft (text : List Char) : List Char := trimLeftWith isWs text

def trimLeftIf (text : List Char) (ch : Char) : List Char := trimLeftWith (· == ch) text

structure TrimRight where
  text : List Char
  /-- The strings `front()` was evaluated on. -/
  fronts : List (List Char)
  deriving DecidableEq

/-- Both right trims; `first` is what `front()` is compared with. -/
def trimRightWith (matching : Char → Bool) (first : Char) (text : List Char) : TrimRight :=
  match findLastNotOf text matching with
  | none => ⟨if front text = first then [] else text, [text]⟩
  | some last => ⟨text.take (last + 1), []⟩

def trimRight (text : List Char) : TrimRight := trimRightWith isWs ' ' text

def trimRightIf (text : List Char) (ch : Char) : TrimRight := trimRightWith (· == ch) ch text

def trim (text : List Char) : List Char := (trimRight (trimLeft text)).text

/-! ### What is found -/

variable {matching : Char → Bool} {text r : List Char} {first : Char}

theorem findFirstNotOf_eq_none : findFirstNotOf text matching = none ↔ ∀ c ∈ text, matching c := by
  simp [findFirstNotOf]

theorem findLastNotOf_eq_none : findLastNotOf text matching = none ↔ ∀ c ∈ text, matching c := by
  rw [findLastNotOf, Option.map_eq_none_iff, findFirstNotOf_eq_none]
  simp

theorem drop_of_findFirstNotOf {i : Nat} (h : findFirstNotOf text matching = some i) :
    text.drop i = text.dropWhile matching := by
  rw [findFirstNotOf, List.findIdx?_eq_some_iff_findIdx_eq] at h
  rw [List.dropWhile_eq_drop_findIdx_not, h.2]

theorem take_of_findLastNotOf {j : Nat} (h : findLastNotOf text matching = some j) :
    text.take (j + 1) = text.rdropWhile matching := by
  rw [findLastNotOf, Option.map_eq_some_iff] at h
  obtain ⟨i, hi, rfl⟩ := h
  have hlt := (List.findIdx?_eq_some_iff_findIdx_eq.mp hi).1
  rw [List.length_reverse] at hlt
  rw [List.rdropWhile, ← drop_of_findFirstNotOf hi, List.reverse_drop, List.reverse_reverse, List.length_reverse]
  congr 1
  omega

theorem trimLeftWith_eq (matching : Char → Bool) (text : List Char) :
    trimLeftWith matching text = text.dropWhile matching := by
  rw [trimLeftWith]
  cases h : findFirstNotOf text matching with
  | none =>
    rw [eraseFront, List.dropWhile_eq_nil_iff.mpr]
    exact findFirstNotOf_eq_none.mp h
  | some i =>
    rw [eraseFront]
    exact drop_of_findFirstNotOf h

theorem findLastNotOf_drop {i j : Nat} (hi : findFirstNotOf text matching = some i)
    (hj : findLastNotOf text matching = some j) : findLastNotOf (text.drop i) matching = some (j - i) := by
  have hsplit : text.reverse = (text.drop i).reverse ++ (text.take i).reverse := by
    rw [← List.reverse_append, List.take_append_drop]
  obtain ⟨k, hk⟩ : ∃ k, findFirstNotOf (text.drop i).reverse matching = some k := by
    rw [← Option.ne_none_iff_exists', ne_eq, findFirstNotOf_eq_none]
    intro hall
    have hlast : ∀ c ∈ text.drop i, matching c := fun c hc => hall c (List.mem_reverse.mpr hc)
    have hnil : text.dropWhile matching = [] := by
      rw [← List.dropWhile_idempotent, ← drop_of_findFirstNotOf hi]
      exact List.dropWhile_eq_nil_iff.mpr hlast
    rw [List.dropWhile_eq_nil_iff, ← findFirstNotOf_eq_none, hi] at hnil
    contradiction
  have hlt := (List.findIdx?_eq_some_iff_findIdx_eq.mp hk).1
  rw [findLastNotOf, hsplit, findFirstNotOf, List.findIdx?_append, ← findFirstNotOf, hk] at hj
  rw [findLastNotOf, hk]
  simp only [Option.some_or, Option.map_some, Option.some.injEq, List.length_drop, List.length_reverse] at hj hlt ⊢
  omega

/-! ### Both trims -/

/-- `r` is `text` without its maximal prefix and its maximal suffix of matching characters. -/
structure Stripped (matching : Char → Bool) (text r : List Char) : Prop where
  split : ∃ x y, text = x ++ r ++ y ∧ (∀ c ∈ x, matching c) ∧ ∀ c ∈ y, matching c
  head : ∀ h : r ≠ [], ¬ matching (r.head h)
  last : ∀ h : r ≠ [], ¬ matching (r.getLast h)

theorem stripped_iff : Stripped matching text r ↔ r = (text.dropWhile matching).rdropWhile matching := by
  constructor
  · rintro ⟨⟨x, y, rfl, hx, hy⟩, hhead, hlast⟩
    rw [List.append_assoc, List.dropWhile_append_of_pos hx]
    cases r with
    | nil =>
      rw [List.nil_append, List.dropWhile_eq_nil_iff.mpr hy]
      rfl
    | cons c r =>
      have hc : ¬ matching c := hhead (List.cons_ne_nil c r)
      rw [List.cons_append, List.dropWhile_cons_of_neg hc, ← List.cons_append, List.rdropWhile, List.reverse_append,
        List.dropWhile_append_of_pos fun c hc => hy c (List.mem_reverse.mp hc), ← List.rdropWhile]
      exact (List.rdropWhile_eq_self_iff.mpr hlast).symm
  · rintro rfl
    refine ⟨⟨text.takeWhile matching, (text.dropWhile matching).rtakeWhile matching, ?_, ?_, ?_⟩, ?_, ?_⟩
    · rw [List.append_assoc, List.rdropWhile_append_rtakeWhile, List.takeWhile_append_dropWhile]
    · exact fun c hc => List.mem_takeWhile_imp hc
    · exact fun c hc => List.mem_rtakeWhile_imp hc
    · intro h
      have hdrop : text.dropWhile matching ≠ [] := by
        intro hnil
        rw [hnil] at h
        exact h rfl
      have hbegin := List.rdropWhile_prefix matching (text.dropWhile matching)
      rw [hbegin.head h]
      exact Bool.not_eq_true _ ▸ List.head_dropWhile_not matching hdrop
    · exact fun h => List.rdropWhile_last_not matching _ h

theorem trimCopy_eq (text : List Char) : trimCopy text = (text.dropWhile isWs).rdropWhile isWs := by
  rw [trimCopy]
  cases hi : findFirstNotOf text isWs with
  | none => rw [List.dropWhile_eq_nil_iff.mpr (findFirstNotOf_eq_none.mp hi), List.rdropWhile_nil]
  | some i =>
    obtain ⟨j, hj⟩ : ∃ j, findLastNotOf text isWs = some j := by
      rw [← Option.ne_none_iff_exists', ne_eq, findLastNotOf_eq_none, ← findFirstNotOf_eq_none, hi]
      exact Option.some_ne_none i
    rw [hj, ← drop_of_findFirstNotOf hi, ← take_of_findLastNotOf (findLastNotOf_drop hi hj)]
    rfl

/-- A text that does not begin with white space is no special case, but for the empty one. -/
theorem trim_eq (text : List Char) : trim text = (text.dropWhile isWs).rdropWhile isWs := by
  rw [trim, trimLeft, trimLeftWith_eq, trimRight, trimRightWith]
  cases hlast : findLastNotOf (text.dropWhile isWs) isWs with
  | none =>
    have hnil : text.dropWhile isWs = [] := by
      rw [← List.dropWhile_idempotent]
      exact List.dropWhile_eq_nil_iff.mpr (findLastNotOf_eq_none.mp hlast)
    rw [hnil]
    decide
  | some j => exact take_of_findLastNotOf hlast

/-- **`trim` and `trim_copy` agree**: both leave the text between the white space at its ends, and trimming that
changes nothing. -/
theorem trim_agrees (text : List Char) :
    trim text = trimCopy text ∧ (∀ r, Stripped isWs text r ↔ r = trim text) ∧ trim (trim text) = trim text := by
  refine ⟨by rw [trim_eq, trimCopy_eq], fun r => by rw [stripped_iff, trim_eq], ?_⟩
  have hstripped : Stripped isWs text (trim text) := by rw [stripped_iff, trim_eq]
  have hagain : Stripped isWs (trim text) (trim text) :=
    ⟨⟨[], [], by simp, List.forall_mem_nil _, List.forall_mem_nil _⟩, hstripped.head, hstripped.last⟩
  rw [stripped_iff, ← trim_eq] at hagain
  exact hagain.symm

/-! ### Right trims -/

/-- `text` lost its maximal suffix of matching characters, and `front()` was asked of no empty string. -/
def RightTrimmed (matching : Char → Bool) (text : List Char) (x : TrimRight) : Prop :=
  x.text = text.rdropWhile matching ∧ ∀ s ∈ x.fronts, s ≠ []

theorem rightTrimmed_iff (matching : Char → Bool) (first : Char) (text : List Char) :
    RightTrimmed matching text (trimRightWith matching first text) ↔
      text ≠ [] ∧ ((∃ c ∈ text, ¬ matching c) ∨ front text = first) := by
  rw [trimRightWith]
  cases hlast : findLastNotOf text matching with
  | none =>
    have hall := findLastNotOf_eq_none.mp hlast
    have hnone : ¬ ∃ c ∈ text, ¬ matching c := by
      rintro ⟨c, hc, hnot⟩
      exact hnot (hall c hc)
    have hnil := List.rdropWhile_eq_nil_iff.mpr hall
    dsimp only
    rw [RightTrimmed, hnil, List.forall_mem_singleton, and_comm, or_iff_right hnone]
    refine and_congr_right fun hne => ?_
    by_cases hfront : front text = first
    · rw [if_pos hfront]
      exact iff_of_true rfl hfront
    · rw [if_neg hfront]
      exact iff_of_false hne hfront
  | some j =>
    have hsome : ∃ c ∈ text, ¬ matching c := by
      by_contra hnone
      push Not at hnone
      rw [← findLastNotOf_eq_none, hlast] at hnone
      contradiction
    obtain ⟨c, hc, -⟩ := id hsome
    refine iff_of_true ⟨take_of_findLastNotOf hlast, List.forall_mem_nil _⟩ ⟨List.ne_nil_of_mem hc, Or.inl hsome⟩

/-- **When right trimming is right**: not on the empty string, and with `trim_right` white space alone has to begin
with a blank. -/
theorem trim_right_iff (text : List Char) (ch : Char) :
    (RightTrimmed isWs text (trimRight text) ↔ text ≠ [] ∧ ((∃ c ∈ text, ¬ isWs c) ∨ front text = ' ')) ∧
      (RightTrimmed (· == ch) text (trimRightIf text ch) ↔ text ≠ []) := by
  refine ⟨rightTrimmed_iff isWs ' ' text, ?_⟩
  rw [trimRightIf, rightTrimmed_iff]
  constructor
  · exact And.left
  · intro hne
    refine ⟨hne, ?_⟩
    by_contra hnot
    push Not at hnot
    obtain ⟨c, text, rfl⟩ := List.exists_cons_of_ne_nil hne
    exact hnot.2 (beq_iff_eq.mp (hnot.1 c List.mem_cons_self))

/-- A tab is left; an empty string has no `front()`. -/
theorem trim_right_fails :
    ¬ RightTrimmed isWs "\t".toList (trimRight "\t".toList) ∧ ¬ RightTrimmed isWs "".toList (trimRight "".toList) ∧
      ¬ RightTrimmed (· == ' ') "".toList (trimRightIf "".toList ' ') := by
  refine ⟨fun h => ?_, fun h => ?_, fun h => ?_⟩
  · exact absurd h.1 (by decide)
  · exact absurd rfl (h.2 [] (by decide))
  · exact absurd rfl (h.2 [] (by decide))

end Libhbk.Strings
